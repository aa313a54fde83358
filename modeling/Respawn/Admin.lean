import Respawn.Basic
import Respawn.Quoting

/-!
# The privileged snapshot

`snap --apfs --ask-admin` runs the snapshot again through the macOS
authorization prompt.  What runs is one AppleScript statement whose string
literal is a shell command line, so a path or a message passes through two
readers: `asEscape` is undone by the reader of the literal
(`literal_asEscape`), and `shQuote` by the shell (`spells_shQuote`).

`adminScript_reads` puts both together: whatever the paths and the message are,
the two readers find the three intended commands, with each argument one word.

The user and group numbers come from the `id` program, which is the parameter
`id` here; a path is the bytes the system gives, and its text is `lossy`.
-/

namespace Respawn.Admin

open ByteStr

/-- Single-quote a string for a POSIX shell. -/
def shQuote (s : Bytes) : Bytes := str "'" ++ replaceWith 39 (str "'\\''") s ++ str "'"

/-- Escape a string for an AppleScript literal. -/
def asEscape (s : Bytes) : Bytes :=
  replaceWith 34 (str "\\\"") (replaceWith 92 (str "\\\\") s)

section

-- what `id` prints with the given flag
variable (id : Bytes → Except Error Bytes)

def uid : Except Error Bytes := (id (str "-u")).map fun out => trim (lossy out)

def gid : Except Error Bytes := (id (str "-g")).map fun out => trim (lossy out)

/-- The command line the privileged shell runs. -/
def shellCommand (uid gid exe worktree fabric message : Bytes) : Bytes :=
  str "cd " ++ shQuote (lossy worktree) ++ str " && " ++ shQuote (lossy exe) ++
    str " snap --apfs -m " ++ shQuote message ++ str " && /usr/sbin/chown -R " ++
    uid ++ str ":" ++ gid ++ str " " ++ shQuote (lossy fabric)

/-- Build the AppleScript. -/
def adminScript (exe worktree fabric message : Bytes) : Except Error Bytes := do
  let u ← uid id
  let g ← gid id
  return str "do shell script \"" ++ asEscape (shellCommand u g exe worktree fabric message) ++
    str "\" with administrator privileges"

/-- The documented behaviour of `id`: with `-u` and `-g` it prints the number of
the user and of the group on a line. -/
structure PrintsIds (u g : Nat) : Prop where
  user : id (str "-u") = .ok (decimal u ++ [10])
  group : id (str "-g") = .ok (decimal g ++ [10])

end

/-! ## Undoing the escapes -/

/-- One byte of an escaped string. -/
theorem asEscape_cons (b : UInt8) (s : Bytes) :
    asEscape (b :: s) = (if b = 92 ∨ b = 34 then [92, b] else [b]) ++ asEscape s := by
  have hescape : str "\\\\" = [92, 92] := rfl
  have hquote : str "\\\"" = [92, 34] := rfl
  unfold asEscape
  rw [replaceWith_cons, replaceWith_append, hescape, hquote]
  by_cases hb : b = 92
  · subst hb
    rfl
  · by_cases hq : b = 34
    · subst hq
      rfl
    · simp [hb, hq, replaceWith_cons]

/-- **The literal is the string.**  Reading an escaped string as an AppleScript
literal gives the string back and stops at the closing quote. -/
theorem literal_asEscape (s value rest : Bytes) :
    AppleScript.literal false value (asEscape s ++ 34 :: rest) = some (value ++ s, rest) := by
  induction s generalizing value with
  | nil => simp [asEscape, AppleScript.literal]
  | cons b s ih =>
      rw [asEscape_cons, List.append_assoc]
      by_cases hspecial : b = 92 ∨ b = 34
      · have hback : AppleScript.unescape b = some b := by
          obtain rfl | rfl := hspecial <;> rfl
        simp [hspecial, AppleScript.literal, hback, ih]
      · obtain ⟨hescape, hquote⟩ := not_or.mp hspecial
        simp [AppleScript.literal, hescape, hquote, ih]

/-- Inside single quotes, up to the quote that ends the word. -/
theorem scan_single {s : Bytes} (h : 0 ∉ s) (cur : Option Shell.Word) (part rest : Bytes) :
    Shell.scan .single (Shell.push cur part true) (replaceWith 39 (str "'\\''") s ++ 39 :: rest) =
      Shell.scan .plain (Shell.push cur (part ++ s) true) rest := by
  have hquoted : str "'\\''" = [39, 92, 39, 39] := rfl
  induction s generalizing part with
  | nil => simp [Shell.scan]
  | cons b s ih =>
      have hrest : 0 ∉ s := fun hmem => h (List.mem_cons_of_mem b hmem)
      have hnul : b ≠ 0 := fun hb => h (hb ▸ List.mem_cons_self)
      have hstep := ih hrest (part ++ [b])
      rw [List.append_assoc, List.singleton_append] at hstep
      rw [replaceWith_cons, List.append_assoc, ← hstep, hquoted]
      by_cases hb : b = 39
      · -- the quote is closed, an escaped one follows, and the next one opens again
        subst hb
        simp [Shell.scan, Shell.isBlank]
      · simp [Shell.scan, hb, hnul]

/-- **A quoted string is one word.**  Nothing in it is expanded and nothing ends
it, whatever its bytes are. -/
theorem spells_shQuote {s : Bytes} (h : 0 ∉ s) : Shell.Spells (shQuote s) ⟨s, true⟩ := by
  intro cur rest
  have hquote : str "'" = [39] := rfl
  have hopen : Shell.scan .plain cur (shQuote s ++ rest) = Shell.scan .single
      (Shell.push cur [] true) (replaceWith 39 (str "'\\''") s ++ 39 :: rest) := by
    simp [shQuote, hquote, Shell.scan, Shell.isBlank]
  rw [hopen, scan_single h]
  rfl

/-! ## The script -/

/-- Lossy decoding brings in no NUL. -/
theorem lossyAux_nul {n : Nat} {s : Bytes} (h : 0 ∉ s) : 0 ∉ lossyAux n s := by
  induction n generalizing s with
  | zero => exact List.not_mem_nil
  | succ n ih =>
      cases s with
      | nil => exact List.not_mem_nil
      | cons a rest =>
          have hrest : 0 ∉ rest := fun hmem => h (List.mem_cons_of_mem a hmem)
          have hlater := ih fun hmem => hrest (List.mem_of_mem_drop (i := (utf8Head a rest).2) hmem)
          have htaken : 0 ∉ rest.take (utf8Head a rest).2 := fun hmem =>
            hrest (List.mem_of_mem_take hmem)
          have hhead : (0 : UInt8) ≠ a := fun ha => h (ha ▸ List.mem_cons_self)
          simp only [lossyAux, List.mem_append, not_or]
          refine ⟨?_, hlater⟩
          by_cases hok : (utf8Head a rest).1
          · simp [hok, hhead, htaken]
          · simp [hok]

/-- The lossy text of a path has no NUL of its own. -/
theorem lossy_nul {s : Bytes} (h : 0 ∉ s) : 0 ∉ lossy s := lossyAux_nul h

/-- The digits of a number are plain to the shell. -/
theorem decimal_plain {n : Nat} {b : UInt8} (h : b ∈ decimal n) : Shell.IsPlain b := by
  have hdigit : ∀ d, d < 58 → 48 ≤ d → Shell.IsPlain (UInt8.ofNat d) := by decide
  obtain ⟨hlow, hhigh⟩ := decimal_digit h
  rw [UInt8.le_iff_toNat_le] at hlow hhigh
  have hb := hdigit b.toNat (Nat.lt_succ_of_le hhigh) hlow
  rwa [UInt8.ofNat_toNat] at hb

/-- `uid:gid` is one word. -/
theorem spells_owner (u g : Nat) :
    Shell.Spells (decimal u ++ str ":" ++ decimal g)
      ⟨decimal u ++ str ":" ++ decimal g, false⟩ := by
  apply Shell.spells_plain
  · simp [decimal_ne_nil]
  · intro b hb
    have hcolon : str ":" = [58] := rfl
    rw [hcolon, List.mem_append, List.mem_append, List.mem_singleton] at hb
    obtain (hu | rfl) | hg := hb
    · exact decimal_plain hu
    · decide
    · exact decimal_plain hg

/-- The words of the command line, as they are spelled. -/
def spelled (u g : Nat) (exe worktree fabric message : Bytes) : List Bytes :=
  [str "cd", shQuote (lossy worktree), str "&&",
    shQuote (lossy exe), str "snap", str "--apfs", str "-m", shQuote message, str "&&",
    str "/usr/sbin/chown", str "-R", decimal u ++ str ":" ++ decimal g, shQuote (lossy fabric)]

/-- The command is the spellings of its words with blanks between them. -/
theorem shellCommand_eq (u g : Nat) (exe worktree fabric message : Bytes) :
    shellCommand (decimal u) (decimal g) exe worktree fabric message =
      [32].intercalate (spelled u g exe worktree fabric message) := by
  have hcd : str "cd " = str "cd" ++ [32] := rfl
  have hand : str " && " = [32] ++ str "&&" ++ [32] := rfl
  have hsnap : str " snap --apfs -m " =
    [32] ++ str "snap" ++ [32] ++ str "--apfs" ++ [32] ++ str "-m" ++ [32] := rfl
  have hchown : str " && /usr/sbin/chown -R " =
    [32] ++ str "&&" ++ [32] ++ str "/usr/sbin/chown" ++ [32] ++ str "-R" ++ [32] := rfl
  have hblank : str " " = [32] := rfl
  simp only [shellCommand, spelled, hcd, hand, hsnap, hchown, hblank, List.append_assoc,
    List.intercalate_cons_cons, List.intercalate_singleton]

/-- The intended commands. -/
def intended (u g : Nat) (exe worktree fabric message : Bytes) : List (List Bytes) :=
  [[str "cd", lossy worktree],
    [lossy exe, str "snap", str "--apfs", str "-m", message],
    [str "/usr/sbin/chown", str "-R", decimal u ++ str ":" ++ decimal g, lossy fabric]]

/-- The shell reads its command line as the intended commands. -/
theorem shellCommand_reads (u g : Nat) {exe worktree fabric message : Bytes} (hexe : 0 ∉ exe)
    (hworktree : 0 ∉ worktree) (hfabric : 0 ∉ fabric) (hmessage : 0 ∉ message) :
    Shell.readAndList (shellCommand (decimal u) (decimal g) exe worktree fabric message) =
      some (intended u g exe worktree fabric message) := by
  have hplain : ∀ w ∈ [str "cd", str "snap", str "--apfs", str "-m", str "/usr/sbin/chown",
      str "-R"], w ≠ [] ∧ (w.all fun b => decide (Shell.IsPlain b)) = true := by decide
  have hword : ∀ w ∈ [str "cd", str "snap", str "--apfs", str "-m", str "/usr/sbin/chown",
      str "-R"], Shell.Chunk w (.word ⟨w, false⟩) := fun w hw =>
    (Shell.spells_plain (hplain w hw).1 (forall_of_all (hplain w hw).2)).chunk
  have hchunks : List.Forall₂ Shell.Chunk (spelled u g exe worktree fabric message)
      [.word ⟨str "cd", false⟩, .word ⟨lossy worktree, true⟩, .op .andIf,
        .word ⟨lossy exe, true⟩, .word ⟨str "snap", false⟩, .word ⟨str "--apfs", false⟩,
        .word ⟨str "-m", false⟩, .word ⟨message, true⟩, .op .andIf,
        .word ⟨str "/usr/sbin/chown", false⟩, .word ⟨str "-R", false⟩,
        .word ⟨decimal u ++ str ":" ++ decimal g, false⟩, .word ⟨lossy fabric, true⟩] := by
    refine .cons (hword _ (by simp)) (.cons (spells_shQuote (lossy_nul hworktree)).chunk
      (.cons Shell.chunk_andIf (.cons (spells_shQuote (lossy_nul hexe)).chunk
      (.cons (hword _ (by simp)) (.cons (hword _ (by simp)) (.cons (hword _ (by simp))
      (.cons (spells_shQuote hmessage).chunk (.cons Shell.chunk_andIf
      (.cons (hword _ (by simp)) (.cons (hword _ (by simp))
      (.cons (spells_owner u g).chunk
      (.cons (spells_shQuote (lossy_nul hfabric)).chunk .nil))))))))))))
  rw [shellCommand_eq, Shell.readAndList,
    Shell.scan_line (by simp [spelled]) hchunks, Option.bind_some]
  have hcd : str "cd" ∉ Shell.reservedWords := by decide
  have hchown : str "/usr/sbin/chown" ∉ Shell.reservedWords := by decide
  simp [Shell.andList, Shell.Word.beginsCommand, hcd, hchown, intended]

section

variable {id : Bytes → Except Error Bytes} {u g : Nat}

/-- A number printed by `id` is read back as its digits. -/
theorem trim_number (n : Nat) : trim (lossy (decimal n ++ [10])) = decimal n := by
  have hvalid : validUtf8 (decimal n ++ [10]) = true := by
    apply validUtf8_ascii
    intro b hb
    obtain hdigit | hnewline := List.mem_append.mp hb
    · exact UInt8.lt_of_le_of_lt (decimal_digit hdigit).2 (by decide)
    · rw [List.mem_singleton.mp hnewline]
      decide
  rw [lossy_eq_self hvalid, trim_line (decimal_ne_nil n) fun b hb => decimal_printing hb]

/-- The AppleScript reader finds the shell command line. -/
theorem adminScript_command (hid : PrintsIds id u g) (exe worktree fabric message : Bytes) :
    ∃ script, adminScript id exe worktree fabric message = .ok script ∧
      AppleScript.privilegedCommand script =
        some (shellCommand (decimal u) (decimal g) exe worktree fabric message) := by
  have huid : uid id = .ok (decimal u) := by
    simp only [uid, hid.user, Except.map, trim_number]
  have hgid : gid id = .ok (decimal g) := by
    simp only [gid, hid.group, Except.map, trim_number]
  have hclose : str "\" with administrator privileges" =
    34 :: str " with administrator privileges" := rfl
  refine ⟨str "do shell script \"" ++ asEscape (shellCommand (decimal u) (decimal g) exe worktree
    fabric message) ++ str "\" with administrator privileges", ?_, ?_⟩
  · simp only [adminScript, huid, hgid]
    rfl
  · have hstart (s : Bytes) : (str "do shell script \"" ++ s).dropPrefix?
        (str "do shell script \"") = some s :=
      List.dropPrefix?_eq_some_iff.mpr ⟨_, rfl, beq_self_eq_true _⟩
    rw [AppleScript.privilegedCommand, List.append_assoc, hstart]
    simp only [Option.bind_eq_bind, Option.bind_some, hclose, literal_asEscape, if_true,
      List.nil_append]

/-- **Nothing is interpolated raw.**  Whatever the paths and the message are,
the script is read as one literal, and its value as the three intended
commands: a path is one word with the path's text (`lossy`, which is the path
itself wherever it is UTF-8), and the message is one word. -/
theorem adminScript_reads (hid : PrintsIds id u g) {exe worktree fabric message : Bytes}
    (hexe : 0 ∉ exe) (hworktree : 0 ∉ worktree) (hfabric : 0 ∉ fabric) (hmessage : 0 ∉ message) :
    ∃ script, adminScript id exe worktree fabric message = .ok script ∧
      (AppleScript.privilegedCommand script).bind Shell.readAndList =
        some (intended u g exe worktree fabric message) ∧
      ∀ p ∈ [exe, worktree, fabric], validUtf8 p = true → lossy p = p := by
  obtain ⟨script, hscript, hread⟩ := adminScript_command hid exe worktree fabric message
  refine ⟨script, hscript, ?_, fun p _ hvalid => lossy_eq_self hvalid⟩
  rw [hread, Option.bind_some]
  exact shellCommand_reads u g hexe hworktree hfabric hmessage

end

/-- A user 501 of group 20. -/
def staffId (flag : Bytes) : Except Error Bytes :=
  .ok (decimal (if flag = str "-u" then 501 else 20) ++ [10])

/-- A message that tries every way out of its quotes. -/
theorem adminScript_reads_hostile :
    ∃ script, adminScript staffId (str "/opt/it's here/respawn") (str "/w; true")
        (str "/w; true/.respawn") (str "x'y $HOME `id` $(echo PWNED) \"q\" \\z\n && rm -rf /") =
          .ok script ∧
      (AppleScript.privilegedCommand script).bind Shell.readAndList =
        some (intended 501 20 (str "/opt/it's here/respawn") (str "/w; true")
          (str "/w; true/.respawn")
          (str "x'y $HOME `id` $(echo PWNED) \"q\" \\z\n && rm -rf /")) ∧
      ∀ p ∈ [str "/opt/it's here/respawn", str "/w; true", str "/w; true/.respawn"],
        validUtf8 p = true → lossy p = p :=
  adminScript_reads ⟨rfl, rfl⟩ (by decide) (by decide) (by decide) (by decide)

end Respawn.Admin
