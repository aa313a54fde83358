import Respawn.Basic
import Respawn.Xml

/-!
# The property list of a schedule

`plistXml` writes the document that tells launchd what to run: the text of
`plist_xml` with the values of a schedule in its slots, each through
`xmlEscape`.  `plistXml_reads` reads the document back as XML: whatever legal
characters the values consist of, the reader finds one dictionary with the
expected keys in their order and each value unchanged, so that no value can
close its element, open another one or change the order.

The label and the paths are here the bytes they are spelled with, whatever
`plan` has made of them; the characters of a value are related to its bytes by
`Spelled`.
-/

namespace Respawn.Schedule

open ByteStr

/-- The fields of a schedule that the property list shows, with the paths as
they are spelled. -/
structure AgentSpec where
  label : Bytes
  exe : Bytes
  anchorDir : Bytes
  worktree : Bytes
  every : UInt64
  log : Bytes
  deriving DecidableEq

/-- XML-escape a value. -/
def xmlEscape (s : Bytes) : Bytes :=
  replaceWith 39 (str "&apos;") (replaceWith 34 (str "&quot;") (replaceWith 62 (str "&gt;")
    (replaceWith 60 (str "&lt;") (replaceWith 38 (str "&amp;") s))))

/-! ## The document -/

def beforeLabel : List String :=
  ["<?xml version=\"1.0\" encoding=\"UTF-8\"?>\n",
    "<!DOCTYPE plist PUBLIC \"-//Apple//DTD PLIST 1.0//EN\" ",
    "\"http://www.apple.com/DTDs/PropertyList-1.0.dtd\">\n",
    "<plist version=\"1.0\">\n<dict>\n",
    "\t<key>Label</key>\n\t<string>"]

def beforeExe : List String :=
  ["</string>\n",
    "\t<key>ProgramArguments</key>\n\t<array>\n",
    "\t\t<string>"]

def beforeDir : List String :=
  ["</string>\n",
    "\t\t<string>anchor</string>\n",
    "\t\t<string>next</string>\n",
    "\t\t<string>"]

def beforeWorktree : List String :=
  ["</string>\n",
    "\t</array>\n",
    "\t<key>WorkingDirectory</key>\n\t<string>"]

def beforeEvery : List String :=
  ["</string>\n",
    "\t<key>StartInterval</key>\n\t<integer>"]

def beforeOutLog : List String :=
  ["</integer>\n",
    "\t<key>RunAtLoad</key>\n\t<true/>\n",
    "\t<key>StandardOutPath</key>\n\t<string>"]

def beforeErrorLog : List String :=
  ["</string>\n",
    "\t<key>StandardErrorPath</key>\n\t<string>"]

def ending : List String :=
  ["</string>\n",
    "</dict>\n</plist>\n"]

/-- The property list document. -/
def plistXml (spec : AgentSpec) : Bytes :=
  beforeLabel.flatMap str ++ xmlEscape spec.label ++
  beforeExe.flatMap str ++ xmlEscape (lossy spec.exe) ++
  beforeDir.flatMap str ++ xmlEscape (lossy spec.anchorDir) ++
  beforeWorktree.flatMap str ++ xmlEscape (lossy spec.worktree) ++
  beforeEvery.flatMap str ++ decimal spec.every.toNat ++
  beforeOutLog.flatMap str ++ xmlEscape (lossy spec.log) ++
  beforeErrorLog.flatMap str ++ xmlEscape (lossy spec.log) ++
  ending.flatMap str

/-! ## The values as characters -/

open Xml

/-- The values of a property list as strings of characters. -/
structure AgentText where
  label : Text
  exe : Text
  anchorDir : Text
  worktree : Text
  every : UInt64
  log : Text

/-- `t` is `spec` read as UTF-8. -/
structure AgentText.Spelled (t : AgentText) (spec : AgentSpec) : Prop where
  label : spec.label = encode t.label
  exe : lossy spec.exe = encode t.exe
  anchorDir : lossy spec.anchorDir = encode t.anchorDir
  worktree : lossy spec.worktree = encode t.worktree
  every : spec.every = t.every
  log : lossy spec.log = encode t.log

/-- The strings consist of characters that a document may contain, other than
the carriage return, which ends lines. -/
def Clean (s : Text) : Prop := ∀ c ∈ s, Legal c ∧ c ≠ '\r'

structure AgentText.AllClean (t : AgentText) : Prop where
  label : Clean t.label
  exe : Clean t.exe
  anchorDir : Clean t.anchorDir
  worktree : Clean t.worktree
  log : Clean t.log

/-- `xmlEscape` on characters. -/
def escapeText (s : Text) : Text :=
  replaceWith (Char.ofNat 39) "&apos;".toList (replaceWith (Char.ofNat 34) "&quot;".toList
    (replaceWith '>' "&gt;".toList (replaceWith '<' "&lt;".toList
      (replaceWith '&' "&amp;".toList s))))

/-- Escaping characters is escaping bytes. -/
theorem encode_escapeText (s : Text) : encode (escapeText s) = xmlEscape (encode s) := by
  unfold escapeText xmlEscape
  rw [encode_replaceWith (by decide), encode_replaceWith (by decide),
    encode_replaceWith (by decide), encode_replaceWith (by decide),
    encode_replaceWith (by decide)]
  rfl

/-- The reference that stands for a character in a value. -/
def reference (c : Char) : Option Text :=
  if c = '&' then some "amp".toList
  else if c = '<' then some "lt".toList
  else if c = '>' then some "gt".toList
  else if c = Char.ofNat 34 then some "quot".toList
  else if c = Char.ofNat 39 then some "apos".toList
  else none

theorem escapeText_append (s t : Text) : escapeText (s ++ t) = escapeText s ++ escapeText t := by
  simp only [escapeText, replaceWith_append]

/-- The five replacements in turn are one replacement of each character: no
replacement finds anything to replace in what an earlier one has put in. -/
theorem escapeText_single (c : Char) :
    escapeText [c] = match reference c with
      | some name => '&' :: name ++ [';']
      | none => [c] := by
  by_cases hamp : c = '&'
  · subst hamp
    rfl
  by_cases hlt : c = '<'
  · subst hlt
    rfl
  by_cases hgt : c = '>'
  · subst hgt
    rfl
  by_cases hquot : c = Char.ofNat 34
  · subst hquot
    rfl
  by_cases hapos : c = Char.ofNat 39
  · subst hapos
    rfl
  simp [escapeText, reference, replaceWith_cons, hamp, hlt, hgt, hquot, hapos]

/-- The names of the references are those the reader knows. -/
theorem reference_entity {c : Char} {name : Text} (h : reference c = some name) :
    entityChar name = some c ∧ ∀ d ∈ name, Legal d ∧ d ≠ ';' := by
  unfold reference at h
  split_ifs at h with hamp hlt hgt hquot hapos <;> obtain rfl := Option.some.inj h <;>
    subst_vars <;> exact ⟨rfl, forall_of_all (by decide)⟩

/-- **Escaping is undone by reading.**  In a text, an escaped value is read as
the value itself, and the text goes on. -/
theorem run_escapeText {s : Text} (h : ∀ c ∈ s, Legal c) (text : Text) (n : Nat) :
    ∃ n', run (.content text n) (escapeText s) = some ([], .content (text ++ s) n') := by
  induction s generalizing text n with
  | nil => exact ⟨n, by simp [escapeText, run]⟩
  | cons c s ih =>
      have hrest : ∀ d ∈ s, Legal d := fun d hd => h d (List.mem_cons_of_mem c hd)
      have hone : ∃ n', run (.content text n) (escapeText [c]) =
          some ([], .content (text ++ [c]) n') := by
        rw [escapeText_single]
        cases href : reference c with
        | some name =>
            obtain ⟨hname, hchars⟩ := reference_entity href
            exact ⟨0, run_reference hname hchars text n⟩
        | none =>
            have hplain : c ≠ '&' ∧ c ≠ '<' ∧ c ≠ '>' := by
              refine ⟨?_, ?_, ?_⟩ <;> rintro rfl <;> exact absurd href (by decide)
            exact run_plain (h c List.mem_cons_self) hplain.2.1 hplain.1 hplain.2.2 text n
      obtain ⟨n₁, hn₁⟩ := hone
      obtain ⟨n₂, hn₂⟩ := ih hrest (text ++ [c]) n₁
      refine ⟨n₂, ?_⟩
      rw [← List.singleton_append, escapeText_append, run_append hn₁, hn₂]
      simp

/-! ## Numbers -/

/-- A number in decimal, as characters. -/
def digits (n : Nat) : Text := (decimal n).map fun b => Char.ofNat b.toNat

/-- A digit of a number is a character from 0 to 9. -/
theorem digits_isDigit {n : Nat} {c : Char} (h : c ∈ digits n) :
    ∃ d, d < 58 ∧ 48 ≤ d ∧ c = Char.ofNat d := by
  obtain ⟨b, hb, rfl⟩ := List.mem_map.mp h
  obtain ⟨hlow, hhigh⟩ := decimal_digit hb
  rw [UInt8.le_iff_toNat_le] at hlow hhigh
  exact ⟨b.toNat, Nat.lt_succ_of_le hhigh, hlow, rfl⟩

/-- A property of the ten digits holds for every digit of a number. -/
theorem digits_all {P : Char → Prop} (h : ∀ d, d < 58 → 48 ≤ d → P (Char.ofNat d)) {n : Nat} :
    ∀ c ∈ digits n, P c := by
  intro c hc
  obtain ⟨d, hhigh, hlow, rfl⟩ := digits_isDigit hc
  exact h d hhigh hlow

/-- The characters of a number are its decimal bytes. -/
theorem encode_digits (n : Nat) : encode (digits n) = decimal n := by
  have hbyte : ∀ d, d < 58 → String.utf8EncodeChar (Char.ofNat d) = [UInt8.ofNat d] := by decide
  rw [encode, digits, List.flatMap_map]
  refine (List.flatMap_congr fun b hb => ?_).trans (List.flatMap_singleton' (decimal n))
  have hhigh := (decimal_digit hb).2
  rw [UInt8.le_iff_toNat_le] at hhigh
  rw [hbyte b.toNat (Nat.lt_succ_of_le hhigh), UInt8.ofNat_toNat]

/-- A number reads back from its digits. -/
theorem number_digits (n : Nat) : PropertyList.number (digits n) = some n := by
  have hne : digits n ≠ [] := by simp [digits, decimal_ne_nil]
  have hdigits : ¬ (digits n).any (fun c => !c.isDigit) := by
    have hall := digits_all (P := fun c => c.isDigit = true) (by decide) (n := n)
    simpa using hall
  have hvalue : ∀ d, d < 58 → (Char.ofNat d).toNat = d := by decide
  rw [PropertyList.number, if_neg (not_or.mpr ⟨hne, hdigits⟩), digits, List.foldl_map]
  congr 1
  refine (List.foldl_ext _ (fun v (b : UInt8) => v * 10 + (b.toNat - 48)) 0
    fun v b hb => ?_).trans
    (digitsValue_decimalAux (Nat.lt_succ_self n))
  have hhigh := (decimal_digit hb).2
  rw [UInt8.le_iff_toNat_le] at hhigh
  rw [hvalue b.toNat (Nat.lt_succ_of_le hhigh)]

theorem digits_clean (n : Nat) : Clean (digits n) :=
  digits_all (P := fun c => Legal c ∧ c ≠ '\r') (by decide)

/-- A string without special characters is its own escaped form. -/
theorem escapeText_eq_self {s : Text} (h : ∀ c ∈ s, reference c = none) : escapeText s = s := by
  induction s with
  | nil => rfl
  | cons c s ih =>
      have hc := escapeText_single c
      rw [h c List.mem_cons_self] at hc
      rw [← List.singleton_append, escapeText_append, hc,
        ih fun d hd => h d (List.mem_cons_of_mem c hd)]

theorem escapeText_digits (n : Nat) : escapeText (digits n) = digits n :=
  escapeText_eq_self (digits_all (P := fun c => reference c = none) (by decide))

/-! ## The document as characters -/

/-- A piece of the document. -/
def chars (piece : List String) : Text := piece.flatMap String.toList

theorem encode_chars (piece : List String) : encode (chars piece) = piece.flatMap str := by
  rw [encode, chars, List.flatMap_assoc]
  rfl

/-- The document on characters. -/
def plistText (t : AgentText) : Text :=
  chars beforeLabel ++ escapeText t.label ++
  chars beforeExe ++ escapeText t.exe ++
  chars beforeDir ++ escapeText t.anchorDir ++
  chars beforeWorktree ++ escapeText t.worktree ++
  chars beforeEvery ++ escapeText (digits t.every.toNat) ++
  chars beforeOutLog ++ escapeText t.log ++
  chars beforeErrorLog ++ escapeText t.log ++
  chars ending

theorem encode_plistText {t : AgentText} {spec : AgentSpec} (h : t.Spelled spec) :
    encode (plistText t) = plistXml spec := by
  simp only [plistText, plistXml, encode_append, encode_chars, encode_escapeText,
    escapeText_digits, encode_digits, h.label, h.exe, h.anchorDir, h.worktree, h.every, h.log]

/-! ## The events of the document -/

def opened (name : String) : Event := .start ⟨name.toList, []⟩

def closed (name : String) : Event := .close name.toList

def blank (s : String) : Event := .text s.toList

/-- A key and the white space before its value. -/
def keyEvents (name : String) : List Event :=
  [opened "key", .text name.toList, closed "key", blank "\n\t"]

/-- The pieces as events, each from the start tag of its first value on; all but
the first begin inside the tag that ends the value before. -/
def labelEvents : List Event :=
  [.text [], .instruction, blank "\n", .doctype, blank "\n",
    .start ⟨"plist".toList, [("version".toList, "1.0".toList)]⟩, blank "\n", opened "dict",
    blank "\n\t"] ++ keyEvents "Label" ++ [opened "string"]

def exeEvents : List Event :=
  [closed "string", blank "\n\t"] ++ keyEvents "ProgramArguments" ++
    [opened "array", blank "\n\t\t", opened "string"]

def dirEvents : List Event :=
  [closed "string", blank "\n\t\t", opened "string", .text "anchor".toList, closed "string",
    blank "\n\t\t", opened "string", .text "next".toList, closed "string", blank "\n\t\t",
    opened "string"]

def worktreeEvents : List Event :=
  [closed "string", blank "\n\t", closed "array", blank "\n\t"] ++
    keyEvents "WorkingDirectory" ++ [opened "string"]

def everyEvents : List Event :=
  [closed "string", blank "\n\t"] ++ keyEvents "StartInterval" ++ [opened "integer"]

def outLogEvents : List Event :=
  [closed "integer", blank "\n\t"] ++ keyEvents "RunAtLoad" ++
    [opened "true", closed "true", blank "\n\t"] ++ keyEvents "StandardOutPath" ++
    [opened "string"]

def errorLogEvents : List Event :=
  [closed "string", blank "\n\t"] ++ keyEvents "StandardErrorPath" ++ [opened "string"]

def endingEvents : List Event :=
  [closed "string", blank "\n", closed "dict", blank "\n", closed "plist"]

/-- What the reader makes of the pieces between the values. -/
theorem run_pieces :
    run (.content [] 0) (chars beforeLabel) = some (labelEvents, .content [] 0) ∧
    run .markup (chars beforeExe).tail = some (exeEvents, .content [] 0) ∧
    run .markup (chars beforeDir).tail = some (dirEvents, .content [] 0) ∧
    run .markup (chars beforeWorktree).tail = some (worktreeEvents, .content [] 0) ∧
    run .markup (chars beforeEvery).tail = some (everyEvents, .content [] 0) ∧
    run .markup (chars beforeOutLog).tail = some (outLogEvents, .content [] 0) ∧
    run .markup (chars beforeErrorLog).tail = some (errorLogEvents, .content [] 0) ∧
    run .markup (chars ending).tail = some (endingEvents, .content ['\n'] 0) := by
  decide +kernel

/-- The pieces after a value begin with a tag. -/
theorem pieces_head :
    ∀ piece ∈ [beforeExe, beforeDir, beforeWorktree, beforeEvery, beforeOutLog, beforeErrorLog,
      ending], chars piece = '<' :: (chars piece).tail := by
  decide +kernel

/-- A value and the piece after it: the value is one text, and the piece is read
as it is whatever the value was. -/
theorem run_slot {v : Text} (hv : Clean v) {piece : List String} {es : List Event} {mode : Mode}
    (hhead : chars piece = '<' :: (chars piece).tail)
    (hpiece : run .markup (chars piece).tail = some (es, mode)) :
    run (.content [] 0) (escapeText v ++ chars piece) = some (.text v :: es, mode) := by
  obtain ⟨n, hvalue⟩ := run_escapeText (fun c hc => (hv c hc).1) [] 0
  have htag : run (.content v n) ['<'] = some ([.text v], .markup) := rfl
  rw [run_append hvalue, hhead, ← List.singleton_append, List.nil_append, run_append htag, hpiece]
  rfl

/-- The events of the document. -/
def plistEvents (t : AgentText) : List Event :=
  labelEvents ++ .text t.label :: exeEvents ++ .text t.exe :: dirEvents ++
    .text t.anchorDir :: worktreeEvents ++ .text t.worktree :: everyEvents ++
    .text (digits t.every.toNat) :: outLogEvents ++ .text t.log :: errorLogEvents ++
    .text t.log :: endingEvents

/-- A value and the piece after it, at the end of what has been read. -/
theorem run_then {s v : Text} {es fs : List Event} {mode : Mode} {piece : List String}
    (h : run (.content [] 0) s = some (es, .content [] 0)) (hv : Clean v)
    (hhead : chars piece = '<' :: (chars piece).tail)
    (hpiece : run .markup (chars piece).tail = some (fs, mode)) :
    run (.content [] 0) (s ++ escapeText v ++ chars piece) =
      some (es ++ .text v :: fs, mode) := by
  rw [List.append_assoc, run_append h, run_slot hv hhead hpiece]
  rfl

/-- The text of the property list is scanned to its events. -/
theorem run_plistText {t : AgentText} (h : t.AllClean) :
    run (.content [] 0) (plistText t) = some (plistEvents t, .content ['\n'] 0) := by
  obtain ⟨hlabel, hexe, hdir, hworktree, hevery, houtLog, herrorLog, hend⟩ := run_pieces
  have h₁ := run_then hlabel h.label (pieces_head _ (by simp)) hexe
  have h₂ := run_then h₁ h.exe (pieces_head _ (by simp)) hdir
  have h₃ := run_then h₂ h.anchorDir (pieces_head _ (by simp)) hworktree
  have h₄ := run_then h₃ h.worktree (pieces_head _ (by simp)) hevery
  have h₅ := run_then h₄ (digits_clean t.every.toNat) (pieces_head _ (by simp)) houtLog
  have h₆ := run_then h₅ h.log (pieces_head _ (by simp)) herrorLog
  exact run_then h₆ h.log (pieces_head _ (by simp)) hend

/-! No line of the document ends with a carriage return. -/

theorem reference_clean {c : Char} {name : Text} (h : reference c = some name) :
    '\r' ∉ '&' :: name ++ [';'] := by
  unfold reference at h
  split_ifs at h with hamp hlt hgt hquot hapos <;> obtain rfl := Option.some.inj h <;> decide

/-- A clean text has no carriage return once escaped. -/
theorem escapeText_clean {s : Text} (h : Clean s) : '\r' ∉ escapeText s := by
  induction s with
  | nil => exact List.not_mem_nil
  | cons c s ih =>
      have hone : '\r' ∉ escapeText [c] := by
        rw [escapeText_single]
        cases href : reference c with
        | some name => exact reference_clean href
        | none =>
            have hc := (h c List.mem_cons_self).2
            exact fun hmem => hc (List.mem_singleton.mp hmem).symm
      rw [← List.singleton_append, escapeText_append, List.mem_append, not_or]
      exact ⟨hone, ih fun d hd => h d (List.mem_cons_of_mem c hd)⟩

theorem pieces_clean : ∀ piece ∈ [beforeLabel, beforeExe, beforeDir, beforeWorktree, beforeEvery,
    beforeOutLog, beforeErrorLog, ending], '\r' ∉ chars piece := by
  decide +kernel

/-- Nor has the property list made of clean texts. -/
theorem clean_plistText {t : AgentText} (h : t.AllClean) : '\r' ∉ plistText t := by
  have hpiece := pieces_clean
  simp only [List.forall_mem_cons] at hpiece
  simp only [plistText, List.mem_append, not_or]
  simp only [hpiece, escapeText_clean h.label, escapeText_clean h.exe, escapeText_clean h.anchorDir,
    escapeText_clean h.worktree, escapeText_clean (digits_clean _), escapeText_clean h.log,
    not_false_eq_true, and_self]

/-- The value that the property list is meant to hold. -/
def agentValue (t : AgentText) : PropertyList.Value :=
  .dict [("Label".toList, .string t.label),
    ("ProgramArguments".toList, .array [.string t.exe, .string "anchor".toList,
      .string "next".toList, .string t.anchorDir]),
    ("WorkingDirectory".toList, .string t.worktree),
    ("StartInterval".toList, .integer t.every.toNat),
    ("RunAtLoad".toList, .boolean true),
    ("StandardOutPath".toList, .string t.log),
    ("StandardErrorPath".toList, .string t.log)]

def textElement (name : String) (s : Text) : Node := .element ⟨name.toList, []⟩ [.text s]

/-- An entry of the dictionary with the white space before its key and its value. -/
def entryNodes (key : String) (value : Node) : List Node :=
  [.text "\n\t".toList, textElement "key" key.toList, .text "\n\t".toList, value]

/-- The program and its arguments, on a line each. -/
def argumentNodes (t : AgentText) : List Node :=
  [.text "\n\t\t".toList, textElement "string" t.exe,
    .text "\n\t\t".toList, textElement "string" "anchor".toList,
    .text "\n\t\t".toList, textElement "string" "next".toList,
    .text "\n\t\t".toList, textElement "string" t.anchorDir, .text "\n\t".toList]

/-- The content of the dictionary. -/
def agentNodes (t : AgentText) : List Node :=
  entryNodes "Label" (textElement "string" t.label) ++
  entryNodes "ProgramArguments" (.element ⟨"array".toList, []⟩ (argumentNodes t)) ++
  entryNodes "WorkingDirectory" (textElement "string" t.worktree) ++
  entryNodes "StartInterval" (textElement "integer" (digits t.every.toNat)) ++
  entryNodes "RunAtLoad" (.element ⟨"true".toList, []⟩ []) ++
  entryNodes "StandardOutPath" (textElement "string" t.log) ++
  entryNodes "StandardErrorPath" (textElement "string" t.log) ++ [.text ['\n']]

def agentRoot (t : AgentText) : Node :=
  .element ⟨"plist".toList, [("version".toList, "1.0".toList)]⟩
    [.text ['\n'], .element ⟨"dict".toList, []⟩ (agentNodes t), .text ['\n']]

/-- The events are those of the root, after the declarations and before the
line feed at the end. -/
theorem plistEvents_eq (t : AgentText) :
    plistEvents t = [.text [], .instruction, blank "\n", .doctype, blank "\n"] ++
      events (agentRoot t) := by
  simp [plistEvents, labelEvents, exeEvents, dirEvents, worktreeEvents, everyEvents, outLogEvents,
    errorLogEvents, endingEvents, keyEvents, opened, closed, blank, agentRoot, agentNodes,
    argumentNodes, entryNodes, textElement, events, eventsOf]

/-- The events of the property list nest to its one element. -/
theorem nest_plistEvents (t : AgentText) :
    (plistEvents t ++ [Event.text ['\n']]).foldlM nest [⟨⟨[], []⟩, []⟩] =
      some [⟨⟨[], []⟩, [agentRoot t]⟩] := by
  have hprolog : ([.text [], .instruction, blank "\n", .doctype, blank "\n"] : List Event).foldlM
      nest [⟨⟨[], []⟩, []⟩] = some [⟨⟨[], []⟩, []⟩] := rfl
  rw [plistEvents_eq, List.foldlM_append, List.foldlM_append, hprolog, Option.bind_eq_bind,
    Option.bind_some, agentRoot, nest_root]
  rfl

open PropertyList

theorem textOf_single (s : Text) : textOf [.text s] = some s := by
  simp [textOf]

theorem valueOf_string (s : Text) : valueOf (textElement "string" s) = some (.string s) := by
  simp [textElement, valueOf, textOf_single]

theorem valueOf_integer (n : Nat) :
    valueOf (textElement "integer" (digits n)) = some (.integer n) := by
  simp [textElement, valueOf, textOf_single, number_digits]

theorem valueOf_true : valueOf (.element ⟨"true".toList, []⟩ []) = some (.boolean true) := by
  simp [valueOf]

/-- One item of an array of strings. -/
theorem itemsOf_string (s : Text) (rest : List Node) :
    itemsOf (.text "\n\t\t".toList :: textElement "string" s :: rest) =
      (itemsOf rest).map (.string s :: ·) := by
  have hspace : "\n\t\t".toList.all isSpace = true := rfl
  rw [itemsOf, if_pos hspace, textElement, itemsOf, ← textElement, valueOf_string,
    Option.bind_some]

/-- The arguments are read as an array of four strings. -/
theorem valueOf_array (t : AgentText) :
    valueOf (.element ⟨"array".toList, []⟩ (argumentNodes t)) =
      some (.array [.string t.exe, .string "anchor".toList, .string "next".toList,
        .string t.anchorDir]) := by
  have harray (children : List Node) : valueOf (.element ⟨"array".toList, []⟩ children) =
      (itemsOf children).map .array := by
    simp [valueOf]
  have hend : itemsOf [.text "\n\t".toList] = some [] := rfl
  rw [harray, argumentNodes, itemsOf_string, itemsOf_string, itemsOf_string, itemsOf_string, hend]
  rfl

/-- One entry of a dictionary. -/
theorem entriesOf_entry (key : String) {tag : Tag} {children : List Node} {v : Value}
    (hv : valueOf (.element tag children) = some v) (rest : List Node) :
    entriesOf none (entryNodes key (.element tag children) ++ rest) =
      (entriesOf none rest).map ((key.toList, v) :: ·) := by
  simp [entryNodes, entriesOf, textElement, textOf_single, hv, isSpace]

/-- The dictionary is read entry by entry. -/
theorem valueOf_dict (t : AgentText) :
    valueOf (.element ⟨"dict".toList, []⟩ (agentNodes t)) = some (agentValue t) := by
  have hdict (children : List Node) : valueOf (.element ⟨"dict".toList, []⟩ children) =
      (entriesOf none children).map .dict := by
    simp [valueOf]
  have hend : entriesOf none [.text ['\n']] = some [] := rfl
  rw [hdict, agentNodes]
  simp only [List.append_assoc]
  rw [textElement, entriesOf_entry _ (valueOf_string _), entriesOf_entry _ (valueOf_array t),
    textElement, entriesOf_entry _ (valueOf_string _),
    textElement, entriesOf_entry _ (valueOf_integer _), entriesOf_entry _ valueOf_true,
    textElement, entriesOf_entry _ (valueOf_string _), entriesOf_entry _ (valueOf_string _), hend]
  rfl

/-- The element of the property list is read as its value. -/
theorem read_agentRoot (t : AgentText) : itemsOf
    [.text ['\n'], .element ⟨"dict".toList, []⟩ (agentNodes t), .text ['\n']] =
      some [agentValue t] := by
  have hspace : ['\n'].all isSpace = true := rfl
  have hend : itemsOf [.text ['\n']] = some [] := rfl
  rw [itemsOf, if_pos hspace, itemsOf, valueOf_dict, Option.bind_some, hend]
  rfl

/-- **The property list carries its values faithfully.**  Read as XML, the
document is one dictionary with the expected keys in their order; the label, the
program and its three arguments, the working directory and the log are the
strings of the schedule. -/
theorem plistXml_reads {spec : AgentSpec} {t : AgentText} (hspelled : t.Spelled spec)
    (hclean : t.AllClean) :
    (decode (plistXml spec)).bind read = some (agentValue t) := by
  have hlines : normalizeLines (plistText t) = plistText t :=
    normalizeLines_eq_self (clean_plistText hclean)
  have hlex : lex (plistText t) = some (plistEvents t ++ [.text ['\n']]) := by
    rw [lex, hlines, run_plistText hclean]
  have hdocument : document (plistText t) = some (agentRoot t) := by
    rw [document, hlex, Option.bind_eq_bind, Option.bind_some, nest_plistEvents]
    rfl
  rw [← encode_plistText hspelled, decode_encode, Option.bind_some, PropertyList.read, hdocument,
    agentRoot]
  simp only [if_true, read_agentRoot]

/-- A schedule whose strings are full of markup. -/
def hostileText : AgentText :=
  { label := "com.respawn.anchor.0123".toList
    exe := "/opt/a & b/<respawn>".toList
    anchorDir := "/d</string><key>RunAtLoad</key><false/>".toList
    worktree := "/w]]>&lt;".toList
    every := 3600
    log := "/log \"quoted\" 'too'\n".toList }

def hostileSpec : AgentSpec :=
  { label := encode hostileText.label
    exe := encode hostileText.exe
    anchorDir := encode hostileText.anchorDir
    worktree := encode hostileText.worktree
    every := 3600
    log := encode hostileText.log }

/-- The property list of hostile strings reads back to them. -/
theorem plistXml_reads_hostile :
    (decode (plistXml hostileSpec)).bind read = some (agentValue hostileText) := by
  have hascii : ∀ p ∈ [hostileSpec.exe, hostileSpec.anchorDir, hostileSpec.worktree,
      hostileSpec.log], validUtf8 p = true := by
    decide +kernel
  have hspelled : hostileText.Spelled hostileSpec :=
    { label := rfl
      exe := lossy_eq_self (hascii hostileSpec.exe (by simp))
      anchorDir := lossy_eq_self (hascii hostileSpec.anchorDir (by simp))
      worktree := lossy_eq_self (hascii hostileSpec.worktree (by simp))
      every := rfl
      log := lossy_eq_self (hascii hostileSpec.log (by simp)) }
  refine plistXml_reads hspelled ?_
  constructor <;> exact forall_of_all (by decide +kernel)

end Respawn.Schedule
