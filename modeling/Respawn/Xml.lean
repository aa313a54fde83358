import Mathlib.Data.List.Basic

/-!
# Reading XML and property lists

A reader for the part of XML 1.0 that property lists use.  `lex` turns the
characters of a document into events (tags, texts, the declarations before the
root), `build` nests the events into elements with a stack of open tags, and
`PropertyList.read` reads the value that a property list holds.  A document
outside the part has no reading: comments, CDATA sections, character
references, references in attributes and names outside ASCII.

A text is decoded while it is read: the five predefined entities stand for
their characters.  `lex` is one pass of a state machine, so what it makes of a
document is put together from what it makes of the pieces (`run_append`).
-/

namespace Xml

/-- A string of characters. -/
abbrev Text := List Char

/-- The characters a document may contain. -/
def Legal (c : Char) : Prop :=
  c = '\t' ∨ c = '\n' ∨ c = '\r' ∨ 32 ≤ c.toNat ∧ c.toNat ≠ 0xFFFE ∧ c.toNat ≠ 0xFFFF

instance (c : Char) : Decidable (Legal c) := by
  unfold Legal; infer_instance

/-- A line ends with a line feed, however the document spells its end. -/
def normalizeLines : Text → Text
  | [] => []
  | c :: s =>
      if c = '\r' then
        if s.head? = some '\n' then normalizeLines s else '\n' :: normalizeLines s
      else c :: normalizeLines s

/-- A text without carriage returns keeps its lines. -/
theorem normalizeLines_eq_self {s : Text} (h : '\r' ∉ s) : normalizeLines s = s := by
  induction s with
  | nil => rfl
  | cons c s ih =>
      have hc : c ≠ '\r' := fun heq => h (heq ▸ List.mem_cons_self)
      rw [normalizeLines, if_neg hc, ih fun hmem => h (List.mem_cons_of_mem c hmem)]

/-- Blank, tab and the ends of lines. -/
def isSpace (c : Char) : Bool := c = ' ' || c = '\t' || c = '\n' || c = '\r'

def isNameStart (c : Char) : Bool := c.isAlpha || c = '_' || c = ':'

def isNameChar (c : Char) : Bool := isNameStart c || c.isDigit || c = '-' || c = '.'

/-- The two quotation marks that enclose literals. -/
def isQuote (c : Char) : Bool := c.toNat = 34 || c.toNat = 39

/-- The predefined entities. -/
def entityChar (name : Text) : Option Char :=
  if name = "amp".toList then some '&'
  else if name = "lt".toList then some '<'
  else if name = "gt".toList then some '>'
  else if name = "quot".toList then some (Char.ofNat 34)
  else if name = "apos".toList then some (Char.ofNat 39)
  else none

/-! ## Events -/

/-- What a tag says. -/
structure Tag where
  name : Text
  attributes : List (Text × Text)
  deriving DecidableEq

inductive Event
  | start (tag : Tag)
  | close (name : Text)
  | text (s : Text)
  | instruction
  | doctype
  deriving DecidableEq

/-- Where the reader stands.  `content` counts the brackets just read, since
`]]>` must not stand in a text. -/
inductive Mode
  | content (text : Text) (brackets : Nat)
  | entity (text name : Text)
  | markup
  | instruction (question : Bool)
  | declaration (word : Text)
  | doctype (quote : Option Char)
  | name (name : Text)
  | attributes (tag : Tag)
  | attribute (tag : Tag) (name : Text)
  | equals (tag : Tag) (name : Text)
  | value (tag : Tag) (name : Text) (quote : Char) (value : Text)
  | afterValue (tag : Tag)
  | slash (tag : Tag)
  | closing (name : Text)
  deriving DecidableEq

/-- Inside a tag, between attributes. -/
def betweenAttributes (tag : Tag) (c : Char) : Option (List Event × Mode) :=
  if c = '>' then some ([.start tag], .content [] 0)
  else if c = '/' then some ([], .slash tag)
  else if isSpace c then some ([], .attributes tag)
  else none

/-- Read one character: the events it completes and where the reader stands
after it. -/
def step (mode : Mode) (c : Char) : Option (List Event × Mode) :=
  if ¬ Legal c then none else
  match mode with
  | .content text n =>
      if c = '<' then some ([.text text], .markup)
      else if c = '&' then some ([], .entity text [])
      else if c = '>' ∧ 2 ≤ n then none
      else some ([], .content (text ++ [c]) (if c = ']' then n + 1 else 0))
  | .entity text name =>
      if c = ';' then (entityChar name).map fun d => ([], .content (text ++ [d]) 0)
      else some ([], .entity text (name ++ [c]))
  | .markup =>
      if c = '/' then some ([], .closing [])
      else if c = '?' then some ([], .instruction false)
      else if c = '!' then some ([], .declaration [])
      else if isNameStart c then some ([], .name [c])
      else none
  | .instruction question =>
      if question ∧ c = '>' then some ([.instruction], .content [] 0)
      else some ([], .instruction (c = '?'))
  | .declaration word =>
      if isSpace c then
        if word = "DOCTYPE".toList then some ([], .doctype none) else none
      else some ([], .declaration (word ++ [c]))
  | .doctype none =>
      if c = '>' then some ([.doctype], .content [] 0)
      else if isQuote c then some ([], .doctype (some c))
      else if c = '[' ∨ c = '<' then none
      else some ([], .doctype none)
  | .doctype (some quote) => some ([], .doctype (if c = quote then none else some quote))
  | .name name =>
      if isNameChar c then some ([], .name (name ++ [c])) else betweenAttributes ⟨name, []⟩ c
  | .attributes tag =>
      if isNameStart c then some ([], .attribute tag [c]) else betweenAttributes tag c
  | .attribute tag name =>
      if c = '=' then some ([], .equals tag name)
      else if isNameChar c then some ([], .attribute tag (name ++ [c]))
      else none
  | .equals tag name => if isQuote c then some ([], .value tag name c []) else none
  | .value tag name quote value =>
      if c = quote then some ([], .afterValue ⟨tag.name, tag.attributes ++ [(name, value)]⟩)
      else if c = '<' ∨ c = '&' then none
      else some ([], .value tag name quote (value ++ [c]))
  | .afterValue tag => betweenAttributes tag c
  | .slash tag =>
      if c = '>' then some ([.start tag, .close tag.name], .content [] 0) else none
  | .closing name =>
      if c = '>' then some ([.close name], .content [] 0)
      else if isNameChar c then some ([], .closing (name ++ [c]))
      else none

/-- Read a piece of a document. -/
def run (mode : Mode) : Text → Option (List Event × Mode)
  | [] => some ([], mode)
  | c :: s => (step mode c).bind fun here =>
      (run here.2 s).map fun later => (here.1 ++ later.1, later.2)

/-- What the reader makes of a piece that begins after another one. -/
theorem run_append {mode mode' : Mode} {s t : Text} {es : List Event}
    (h : run mode s = some (es, mode')) :
    run mode (s ++ t) = (run mode' t).map fun later => (es ++ later.1, later.2) := by
  induction s generalizing mode es with
  | nil =>
      obtain ⟨rfl, rfl⟩ := Prod.mk.inj (Option.some.inj h)
      simp
  | cons c s ih =>
      obtain ⟨here, hstep, hrest⟩ := Option.bind_eq_some_iff.mp h
      obtain ⟨later, hlater, heq⟩ := Option.map_eq_some_iff.mp hrest
      obtain ⟨rfl, rfl⟩ := Prod.mk.inj heq
      rw [List.cons_append, run, hstep, Option.bind_some, ih hlater, Option.map_map]
      congr 1
      funext last
      simp

/-- The events of a document. -/
def lex (s : Text) : Option (List Event) :=
  match run (.content [] 0) (normalizeLines s) with
  | some (es, .content text _) => some (es ++ [.text text])
  | _ => none

/-! ## Texts -/

/-- A character without a meaning of its own is part of the text. -/
theorem run_plain {c : Char} (hc : Legal c) (hlt : c ≠ '<') (hamp : c ≠ '&') (hgt : c ≠ '>')
    (text : Text) (n : Nat) :
    ∃ n', run (.content text n) [c] = some ([], .content (text ++ [c]) n') := by
  refine ⟨if c = ']' then n + 1 else 0, ?_⟩
  simp [run, step, hc, hlt, hamp, hgt]

/-- A reference to a predefined entity is the character it stands for. -/
theorem run_reference {name : Text} {c : Char} (hname : entityChar name = some c)
    (hchars : ∀ d ∈ name, Legal d ∧ d ≠ ';') (text : Text) (n : Nat) :
    run (.content text n) ('&' :: name ++ [';']) = some ([], .content (text ++ [c]) 0) := by
  have hletters : ∀ (rest before : Text), (∀ d ∈ rest, Legal d ∧ d ≠ ';') →
      run (.entity text before) rest = some ([], .entity text (before ++ rest)) := by
    intro rest
    induction rest with
    | nil => intro before _; simp [run]
    | cons d rest ih =>
        intro before hrest
        obtain ⟨hlegal, hsemi⟩ := hrest d List.mem_cons_self
        have hlater := ih (before ++ [d]) fun e he => hrest e (List.mem_cons_of_mem d he)
        simp [run, step, hlegal, hsemi, hlater]
  have hopen : run (.content text n) ['&'] = some ([], .entity text []) := rfl
  have hend : run (.entity text name) [';'] = some ([], .content (text ++ [c]) 0) := by
    simp [run, step, hname, Legal]
  rw [List.cons_append, ← List.singleton_append, run_append hopen,
    run_append (hletters name [] hchars), List.nil_append, hend]
  rfl

/-! ## Elements -/

inductive Node
  | text (s : Text)
  | element (tag : Tag) (children : List Node)

/-- An element whose end has not been read, with the children so far; the
lowest one stands for the document itself. -/
structure Open where
  tag : Tag
  children : List Node

def Open.add (o : Open) (node : Node) : Open := { o with children := o.children ++ [node] }

/-- Nest one event.  Outside the root only white space may stand, the document
type comes before the root, and an end tag closes the element it names. -/
def nest : List Open → Event → Option (List Open)
  | [document], .text s => if s.all isSpace then some [document] else none
  | inner :: outer, .text s => some (inner.add (.text s) :: outer)
  | stack, .instruction => some stack
  | [document], .doctype => if document.children.isEmpty then some [document] else none
  | [document], .start tag =>
      if document.children.isEmpty then some [⟨tag, []⟩, document] else none
  | stack, .start tag => some (⟨tag, []⟩ :: stack)
  | inner :: outer :: rest, .close name =>
      if inner.tag.name = name then
        some (outer.add (.element inner.tag inner.children) :: rest)
      else none
  | _, _ => none

mutual

/-- The events of a tree. -/
def events : Node → List Event
  | .text s => [.text s]
  | .element tag children => .start tag :: eventsOf children ++ [.close tag.name]

def eventsOf : List Node → List Event
  | [] => []
  | node :: rest => events node ++ eventsOf rest

end

mutual

/-- The events of a tree add the tree to the open element. -/
theorem nest_events (node : Node) (inner outer : Open) (rest : List Open) :
    (events node).foldlM nest (inner :: outer :: rest) =
      some (inner.add node :: outer :: rest) := by
  match node with
  | .text s => rfl
  | .element tag children =>
      have hchildren := nest_eventsOf children ⟨tag, []⟩ inner (outer :: rest)
      have hopen : nest (inner :: outer :: rest) (.start tag) =
        some (⟨tag, []⟩ :: inner :: outer :: rest) := rfl
      rw [events, List.cons_append, List.foldlM_cons, hopen, Option.bind_eq_bind,
        Option.bind_some, List.foldlM_append, hchildren]
      simp [nest]

/-- The events of children nest into the innermost open element. -/
theorem nest_eventsOf (children : List Node) (inner outer : Open) (rest : List Open) :
    (eventsOf children).foldlM nest (inner :: outer :: rest) =
      some ({ inner with children := inner.children ++ children } :: outer :: rest) := by
  match children with
  | [] => simp [eventsOf]
  | node :: more =>
      rw [eventsOf, List.foldlM_append, nest_events node, Option.bind_eq_bind, Option.bind_some,
        nest_eventsOf more]
      simp [Open.add]

end

/-- The events of the root make the document, which is empty before it. -/
theorem nest_root (tag : Tag) (children : List Node) :
    (events (.element tag children)).foldlM nest [⟨⟨[], []⟩, []⟩] =
      some [⟨⟨[], []⟩, [.element tag children]⟩] := by
  have hopen : nest [⟨⟨[], []⟩, []⟩] (.start tag) = some [⟨tag, []⟩, ⟨⟨[], []⟩, []⟩] := rfl
  rw [events, List.cons_append, List.foldlM_cons, hopen, Option.bind_eq_bind, Option.bind_some,
    List.foldlM_append, nest_eventsOf]
  simp [nest, Open.add]

/-- The root of a document. -/
def document (s : Text) : Option Node := do
  match ← (← lex s).foldlM nest [⟨⟨[], []⟩, []⟩] with
  | [⟨_, [root]⟩] => some root
  | _ => none

end Xml

namespace PropertyList

open Xml

/-- The values a property list holds, without dates and data. -/
inductive Value
  | string (s : Text)
  | integer (n : Nat)
  | boolean (b : Bool)
  | array (items : List Value)
  | dict (entries : List (Text × Value))

/-- The text of an element that holds nothing else. -/
def textOf : List Node → Option Text
  | [] => some []
  | .text s :: rest => (textOf rest).map (s ++ ·)
  | .element _ _ :: _ => none

/-- A decimal number. -/
def number (s : Text) : Option Nat :=
  if s = [] ∨ s.any (fun c => !c.isDigit) then none
  else some (s.foldl (fun n c => n * 10 + (c.toNat - 48)) 0)

mutual

/-- The value that an element stands for. -/
def valueOf : Node → Option Value
  | .text _ => none
  | .element tag children =>
      if tag.name = "string".toList then (textOf children).map .string
      else if tag.name = "integer".toList then ((textOf children).bind number).map .integer
      else if tag.name = "true".toList then
        if children.isEmpty then some (.boolean true) else none
      else if tag.name = "false".toList then
        if children.isEmpty then some (.boolean false) else none
      else if tag.name = "array".toList then (itemsOf children).map .array
      else if tag.name = "dict".toList then (entriesOf none children).map .dict
      else none

/-- The values one after the other, with white space between them. -/
def itemsOf : List Node → Option (List Value)
  | [] => some []
  | .text s :: rest => if s.all isSpace then itemsOf rest else none
  | .element tag children :: rest =>
      (valueOf (.element tag children)).bind fun v => (itemsOf rest).map (v :: ·)

/-- Keys and values in turn; `key` is the key whose value comes next. -/
def entriesOf (key : Option Text) : List Node → Option (List (Text × Value))
  | [] => if key.isNone then some [] else none
  | .text s :: rest => if s.all isSpace then entriesOf key rest else none
  | .element tag children :: rest =>
      match key with
      | none =>
          if tag.name = "key".toList then
            (textOf children).bind fun name => entriesOf (some name) rest
          else none
      | some name =>
          (valueOf (.element tag children)).bind fun v =>
            (entriesOf none rest).map ((name, v) :: ·)

end

/-- The value of a property list: that of the one element inside the root. -/
def read (s : Text) : Option Value :=
  match document s with
  | some (.element tag children) =>
      if tag.name = "plist".toList then
        match itemsOf children with
        | some [v] => some v
        | _ => none
      else none
  | _ => none

end PropertyList
