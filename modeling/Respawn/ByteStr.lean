import Mathlib.Algebra.GroupWithZero.Nat
import Mathlib.Data.List.Infix
import Mathlib.Data.List.Basic

/-!
# Byte strings

A Rust `str`, an `OsStr` and a file's content are all sequences of bytes, so
one type serves for the three: `List UInt8`.  This file has the operations on
such sequences that a program working on files needs, each as the standard
library computes it:

* `splitOn 47` and `joinSlash` cut a path at its separators and rebuild it;
* `lossy` is `to_string_lossy`: every maximal ill-formed UTF-8 sequence is
  replaced by U+FFFD, and a well-formed string is left alone (`lossy_eq_self`);
* `fileLines` is `BufRead::lines` before the UTF-8 check, `trim` strips
  Unicode white space;
* `hexEncode` / `hexDecode` are the lower-case hexadecimal form of a byte
  string and its inverse;
* `replaceWith` puts a text in the place of a character, and `encode` is the
  UTF-8 form of a string of characters; for an ASCII character the two commute
  (`encode_replaceWith`).
-/

namespace ByteStr

/-- A byte string. -/
abbrev Bytes := List UInt8

instance : LawfulBEq Bytes := inferInstance

/-- The bytes of a string literal. -/
def str (s : String) : Bytes := s.toList.flatMap String.utf8EncodeChar

/-- A property of every element, from a check that runs over the list. -/
theorem forall_of_all {α : Type} {p : α → Prop} [DecidablePred p] {l : List α}
    (h : (l.all fun a => decide (p a)) = true) : ∀ a ∈ l, p a :=
  fun a ha => of_decide_eq_true (List.all_eq_true.mp h a ha)

/-- The path separator. -/
abbrev slash : UInt8 := 47

/-- The other separator, which a portable path must not contain. -/
abbrev backslash : UInt8 := 92

/-- `a.contains(b)` on strings. -/
def contains (a b : Bytes) : Bool := decide (b <:+: a)

/-- `s.replace(from, to)` for two single bytes. -/
def replaceByte (old new : UInt8) (s : Bytes) : Bytes :=
  s.map fun b => if b = old then new else b

/-- A byte that does not occur is not replaced. -/
theorem replaceByte_eq_self {old new : UInt8} {s : Bytes} (h : old ∉ s) :
    replaceByte old new s = s := by
  refine (List.map_congr_left fun b hb => ?_).trans (List.map_id s)
  have hne : b ≠ old := fun heq => h (heq ▸ hb)
  simp [hne]

/-- Path components joined by the separator. -/
def joinSlash (names : List Bytes) : Bytes := [slash].intercalate names

theorem joinSlash_cons_cons (a b : Bytes) (rest : List Bytes) :
    joinSlash (a :: b :: rest) = a ++ slash :: joinSlash (b :: rest) := by
  simp [joinSlash]

/-- Cutting a joined path gives its components back. -/
theorem splitOn_joinSlash {names : List Bytes} (hne : names ≠ [])
    (hsep : ∀ n ∈ names, slash ∉ n) :
    (joinSlash names).splitOn slash = names :=
  List.splitOn_intercalate slash hsep hne

/-- A piece of a cut string has no separator and only bytes of the string. -/
theorem mem_splitOnPPrepend {c b : UInt8} {s acc n : Bytes} (hacc : c ∉ acc)
    (hn : n ∈ s.splitOnPPrepend (· == c) acc) (hb : b ∈ n) : b ≠ c ∧ (b ∈ acc ∨ b ∈ s) := by
  induction s generalizing acc with
  | nil =>
      have hrev : n = acc.reverse := by simpa using hn
      subst hrev
      have hmem : b ∈ acc := List.mem_reverse.mp hb
      exact ⟨fun heq => hacc (heq ▸ hmem), Or.inl hmem⟩
  | cons a rest ih =>
      rw [List.splitOnPPrepend_cons_eq_if] at hn
      by_cases ha : a = c
      · rw [if_pos (by simpa using ha), ← List.splitOnPPrepend_nil_right] at hn
        rcases List.mem_cons.mp hn with hrev | htail
        · subst hrev
          have hmem : b ∈ acc := List.mem_reverse.mp hb
          exact ⟨fun heq => hacc (heq ▸ hmem), Or.inl hmem⟩
        · obtain ⟨hne, hin⟩ := ih (by simp) htail
          exact ⟨hne, Or.inr (List.mem_cons_of_mem _ (by simpa using hin))⟩
      · rw [if_neg (by simpa using ha)] at hn
        obtain ⟨hne, hin⟩ := ih (by simp [hacc, Ne.symm ha]) hn
        refine ⟨hne, ?_⟩
        rcases hin with hin | hin
        · rcases List.mem_cons.mp hin with heq | hin
          · exact Or.inr (by simp [heq])
          · exact Or.inl hin
        · exact Or.inr (List.mem_cons_of_mem _ hin)

/-- The pieces are of the string and free of the separator. -/
theorem mem_splitOn {c b : UInt8} {s n : Bytes} (hn : n ∈ s.splitOn c) (hb : b ∈ n) :
    b ≠ c ∧ b ∈ s := by
  have hn' : n ∈ s.splitOnPPrepend (· == c) [] := by simpa [List.splitOn] using hn
  obtain ⟨hne, hin⟩ := mem_splitOnPPrepend (by simp) hn' hb
  exact ⟨hne, by simpa using hin⟩

/-- A byte of a joined path is a slash or a byte of a name. -/
theorem mem_joinSlash {names : List Bytes} {b : UInt8} (h : b ∈ joinSlash names) :
    b = slash ∨ ∃ n ∈ names, b ∈ n := by
  induction names with
  | nil => simp [joinSlash] at h
  | cons a rest ih =>
      cases rest with
      | nil => exact Or.inr ⟨a, by simp, by simpa [joinSlash] using h⟩
      | cons c rest =>
          rw [joinSlash_cons_cons] at h
          rcases List.mem_append.mp h with ha | hb
          · exact Or.inr ⟨a, by simp, ha⟩
          · rcases List.mem_cons.mp hb with rfl | hb
            · exact Or.inl rfl
            · rcases ih hb with hs | ⟨n, hn, hbn⟩
              · exact Or.inl hs
              · exact Or.inr ⟨n, List.mem_cons_of_mem _ hn, hbn⟩

/-- What a joined name contains the joined string does. -/
theorem mem_joinSlash_of_mem {names : List Bytes} {n : Bytes} {b : UInt8} (hn : n ∈ names)
    (hb : b ∈ n) : b ∈ joinSlash names := by
  induction names with
  | nil => simp at hn
  | cons a rest ih =>
      cases rest with
      | nil =>
          rw [List.mem_singleton.mp hn] at hb
          simpa [joinSlash] using hb
      | cons c rest =>
          rw [joinSlash_cons_cons]
          rcases List.mem_cons.mp hn with rfl | hn
          · exact List.mem_append_left _ hb
          · exact List.mem_append_right _ (List.mem_cons_of_mem _ (ih hn))

/-! ## UTF-8 -/

/-- A continuation byte. -/
def isCont (b : UInt8) : Bool := decide (0x80 ≤ b ∧ b ≤ 0xBF)

/-- May `b` follow the three-byte lead `a`? -/
def secondOfThree (a b : UInt8) : Bool :=
  if a = 0xE0 then decide (0xA0 ≤ b ∧ b ≤ 0xBF)
  else if a = 0xED then decide (0x80 ≤ b ∧ b ≤ 0x9F)
  else isCont b

/-- May `b` follow the four-byte lead `a`? -/
def secondOfFour (a b : UInt8) : Bool :=
  if a = 0xF0 then decide (0x90 ≤ b ∧ b ≤ 0xBF)
  else if a = 0xF4 then decide (0x80 ≤ b ∧ b ≤ 0x8F)
  else isCont b

/-- Read one sequence whose lead byte is `a`: whether it is well formed, and
how many bytes of `rest` belong to it.  An ill-formed sequence extends as far
as some well-formed one would; reading past the end yields a zero byte, which
continues nothing. -/
def utf8Head (a : UInt8) (rest : Bytes) : Bool × Nat :=
  let b := rest.getD 0 0
  let c := rest.getD 1 0
  let d := rest.getD 2 0
  if a < 0x80 then (true, 0)
  else if 0xC2 ≤ a ∧ a ≤ 0xDF then
    if isCont b then (true, 1) else (false, 0)
  else if 0xE0 ≤ a ∧ a ≤ 0xEF then
    if secondOfThree a b then
      if isCont c then (true, 2) else (false, 1)
    else (false, 0)
  else if 0xF0 ≤ a ∧ a ≤ 0xF4 then
    if secondOfFour a b then
      if isCont c then
        if isCont d then (true, 3) else (false, 2)
      else (false, 1)
    else (false, 0)
  else (false, 0)

/-- `lossy` on a budget of sequences. -/
def lossyAux : Nat → Bytes → Bytes
  | 0, _ => []
  | _ + 1, [] => []
  | n + 1, a :: rest =>
      let (ok, k) := utf8Head a rest
      (if ok then a :: rest.take k else [0xEF, 0xBF, 0xBD]) ++ lossyAux n (rest.drop k)

/-- `OsStr::to_string_lossy`. -/
def lossy (s : Bytes) : Bytes := lossyAux s.length s

/-- `validUtf8` on a budget of sequences. -/
def validUtf8Aux : Nat → Bytes → Bool
  | _, [] => true
  | 0, _ :: _ => false
  | n + 1, a :: rest =>
      let (ok, k) := utf8Head a rest
      ok && validUtf8Aux n (rest.drop k)

/-- Is the byte string well-formed UTF-8? -/
def validUtf8 (s : Bytes) : Bool := validUtf8Aux s.length s

/-- Text that is valid UTF-8 is read as it is. -/
theorem lossyAux_eq_self {n : Nat} {s : Bytes} (h : validUtf8Aux n s = true) :
    lossyAux n s = s := by
  induction n generalizing s with
  | zero => cases s with
    | nil => rfl
    | cons a rest => simp [validUtf8Aux] at h
  | succ n ih => cases s with
    | nil => rfl
    | cons a rest =>
        simp only [validUtf8Aux, Bool.and_eq_true] at h
        simp [lossyAux, h.1, ih h.2]

/-- A well-formed string is its own lossy reading. -/
theorem lossy_eq_self {s : Bytes} (h : validUtf8 s = true) : lossy s = s :=
  lossyAux_eq_self h

/-- The zero byte read past the end continues no sequence, so a well-formed
sequence lies inside the string. -/
theorem utf8Head_good_length {a : UInt8} {rest : Bytes} {k : Nat}
    (h : utf8Head a rest = (true, k)) : k ≤ rest.length := by
  rcases rest with _ | ⟨b, _ | ⟨c, _ | ⟨d, rest⟩⟩⟩ <;>
    simp only [utf8Head, List.getD_cons_zero, List.getD_cons_succ, List.getD_nil] at h <;>
    grind [isCont, secondOfThree, secondOfFour]

/-- A well-formed sequence does not look at what follows it. -/
theorem utf8Head_append {a : UInt8} {rest tail : Bytes} {k : Nat}
    (h : utf8Head a rest = (true, k)) : utf8Head a (rest ++ tail) = (true, k) := by
  rcases rest with _ | ⟨b, _ | ⟨c, _ | ⟨d, rest⟩⟩⟩ <;>
    simp only [utf8Head, List.getD_cons_zero, List.getD_cons_succ, List.getD_nil,
      List.nil_append, List.cons_append] at h ⊢ <;>
    grind [isCont, secondOfThree, secondOfFour]

/-- More budget than sequences changes nothing. -/
theorem validUtf8Aux_mono {n m : Nat} {s : Bytes} (h : validUtf8Aux n s = true)
    (hnm : n ≤ m) : validUtf8Aux m s = true := by
  induction n generalizing m s with
  | zero => cases s with
    | nil => simp [validUtf8Aux]
    | cons a rest => simp [validUtf8Aux] at h
  | succ n ih =>
      obtain ⟨m, rfl⟩ : ∃ j, m = j + 1 := ⟨m - 1, by omega⟩
      cases s with
      | nil => simp [validUtf8Aux]
      | cons a rest =>
          simp only [validUtf8Aux, Bool.and_eq_true] at h ⊢
          exact ⟨h.1, ih h.2 (by omega)⟩

/-- Texts that are valid UTF-8 are so one after the other. -/
theorem validUtf8Aux_append {n m : Nat} {s t : Bytes} (hs : validUtf8Aux n s = true)
    (ht : validUtf8Aux m t = true) : validUtf8Aux (n + m) (s ++ t) = true := by
  induction n generalizing s with
  | zero => cases s with
    | nil => simpa using ht
    | cons a rest => simp [validUtf8Aux] at hs
  | succ n ih => cases s with
    | nil => exact validUtf8Aux_mono ht (by omega)
    | cons a rest =>
        rw [List.cons_append, show n + 1 + m = n + m + 1 by omega]
        simp only [validUtf8Aux, Bool.and_eq_true] at hs ⊢
        have hhead : utf8Head a rest = (true, (utf8Head a rest).2) := Prod.ext hs.1 rfl
        have hlen := utf8Head_good_length hhead
        rw [utf8Head_append hhead, List.drop_append_of_le_length hlen]
        exact ⟨rfl, ih hs.2⟩

/-- Well-formed strings concatenate. -/
theorem validUtf8_append {s t : Bytes} (hs : validUtf8 s = true) (ht : validUtf8 t = true) :
    validUtf8 (s ++ t) = true := by
  unfold validUtf8
  rw [List.length_append]
  exact validUtf8Aux_append hs ht

/-- ASCII is well formed. -/
theorem validUtf8_ascii {s : Bytes} (h : ∀ b ∈ s, b < 128) : validUtf8 s = true := by
  induction s with
  | nil => rfl
  | cons a rest ih =>
      have hhead : utf8Head a rest = (true, 0) := by
        simp only [utf8Head, if_pos (h a (by simp))]
      unfold validUtf8
      simp only [List.length_cons, validUtf8Aux, hhead, List.drop_zero, Bool.true_and]
      exact ih fun b hb => h b (List.mem_cons_of_mem _ hb)

/-- A joined path is well formed when its components are. -/
theorem validUtf8_joinSlash {names : List Bytes} (h : ∀ n ∈ names, validUtf8 n = true) :
    validUtf8 (joinSlash names) = true := by
  induction names with
  | nil => rfl
  | cons a rest ih => cases rest with
    | nil => simpa [joinSlash] using h a (by simp)
    | cons b rest =>
        rw [joinSlash_cons_cons]
        refine validUtf8_append (h a (by simp)) ?_
        exact validUtf8_append (s := [slash]) (by decide)
          (ih fun n hn => h n (List.mem_cons_of_mem _ hn))

/-- A well-formed sequence ends before an ASCII byte. -/
theorem utf8Head_split {a c : UInt8} {rest tail : Bytes} {k : Nat} (hc : c < 128)
    (h : utf8Head a (rest ++ c :: tail) = (true, k)) :
    k ≤ rest.length ∧ utf8Head a rest = (true, k) := by
  rcases rest with _ | ⟨b, _ | ⟨d, _ | ⟨e, rest⟩⟩⟩ <;>
    simp only [utf8Head, List.getD_cons_zero, List.getD_cons_succ, List.getD_nil,
      List.nil_append, List.cons_append, List.length_cons, List.length_nil] at h ⊢ <;>
    grind [isCont, secondOfThree, secondOfFour]

/-- A well-formed sequence looks at its own bytes only. -/
theorem utf8Head_take {a : UInt8} {rest : Bytes} {k : Nat} (h : utf8Head a rest = (true, k)) :
    utf8Head a (rest.take k) = (true, k) := by
  rcases rest with _ | ⟨b, _ | ⟨d, _ | ⟨e, rest⟩⟩⟩ <;>
    simp only [utf8Head, List.getD_cons_zero, List.getD_cons_succ, List.getD_nil] at h <;>
    grind [isCont, secondOfThree, secondOfFour, utf8Head]

/-- A sequence has a byte, so no more budget than bytes is needed. -/
theorem validUtf8_of_aux {n : Nat} {s : Bytes} (h : validUtf8Aux n s = true) :
    validUtf8 s = true := by
  unfold validUtf8
  induction n generalizing s with
  | zero => cases s with
    | nil => rfl
    | cons a rest => simp [validUtf8Aux] at h
  | succ n ih => cases s with
    | nil => rfl
    | cons a rest =>
        simp only [validUtf8Aux, Bool.and_eq_true, List.length_cons] at h ⊢
        exact ⟨h.1, validUtf8Aux_mono (ih h.2) (by rw [List.length_drop]; omega)⟩

/-- A well-formed string may be cut at an ASCII byte. -/
theorem validUtf8Aux_split {n : Nat} {c : UInt8} {s t : Bytes} (hc : c < 128)
    (h : validUtf8Aux n (s ++ c :: t) = true) :
    validUtf8 s = true ∧ validUtf8 t = true := by
  induction n generalizing s with
  | zero => cases s <;> simp [validUtf8Aux] at h
  | succ n ih => cases s with
    | nil =>
        have hhead : utf8Head c t = (true, 0) := by simp only [utf8Head, if_pos hc]
        simp only [List.nil_append, validUtf8Aux, hhead, List.drop_zero, Bool.true_and] at h
        exact ⟨rfl, validUtf8_of_aux h⟩
    | cons a rest =>
        simp only [List.cons_append, validUtf8Aux, Bool.and_eq_true] at h
        have hwhole : utf8Head a (rest ++ c :: t) = (true, (utf8Head a (rest ++ c :: t)).2) :=
          Prod.ext h.1 rfl
        obtain ⟨hlen, hhead⟩ := utf8Head_split hc hwhole
        rw [List.drop_append_of_le_length hlen] at h
        obtain ⟨hs, ht⟩ := ih h.2
        refine ⟨validUtf8_of_aux (n := (rest.drop (utf8Head a (rest ++ c :: t)).2).length + 1)
          ?_, ht⟩
        simp only [validUtf8Aux, hhead, Bool.true_and]
        exact hs

/-- The components of a well-formed path are well formed. -/
theorem validUtf8_of_joinSlash {names : List Bytes} (h : validUtf8 (joinSlash names) = true) :
    ∀ n ∈ names, validUtf8 n = true := by
  induction names with
  | nil => simp
  | cons a rest ih => cases rest with
    | nil =>
        intro n hn
        rw [List.mem_singleton.mp hn]
        simpa [joinSlash] using h
    | cons b rest =>
        rw [joinSlash_cons_cons] at h
        obtain ⟨ha, hrest⟩ := validUtf8Aux_split (by decide) h
        intro n hn
        rcases List.mem_cons.mp hn with rfl | hn
        · exact ha
        · exact ih hrest n hn

/-- A lossy reading is well formed. -/
theorem validUtf8_lossyAux (n : Nat) (s : Bytes) : validUtf8 (lossyAux n s) = true := by
  induction n generalizing s with
  | zero => rfl
  | succ n ih => cases s with
    | nil => rfl
    | cons a rest =>
        simp only [lossyAux]
        refine validUtf8_append ?_ (ih _)
        cases hok : (utf8Head a rest).1 with
        | false => exact (by decide : validUtf8 [0xEF, 0xBF, 0xBD] = true)
        | true =>
            have hhead : utf8Head a (rest.take (utf8Head a rest).2) =
                (true, (utf8Head a rest).2) := utf8Head_take (Prod.ext hok rfl)
            apply validUtf8_of_aux (n := 1)
            simp only [if_true, validUtf8Aux, hhead, Bool.true_and]
            rw [List.drop_of_length_le (List.length_take_le _ _)]
            rfl

/-- A lossy reading has no new ASCII bytes. -/
theorem mem_lossyAux {n : Nat} {s : Bytes} {b : UInt8} (hb : b < 128) (h : b ∈ lossyAux n s) :
    b ∈ s := by
  induction n generalizing s with
  | zero => cases h
  | succ n ih => cases s with
    | nil => cases h
    | cons a rest =>
        simp only [lossyAux] at h
        rcases List.mem_append.mp h with hfirst | hlater
        · split at hfirst
          · rcases List.mem_cons.mp hfirst with rfl | htaken
            · exact List.mem_cons_self
            · exact List.mem_cons_of_mem _ (List.mem_of_mem_take htaken)
          · -- the replacement character is no ASCII
            simp only [List.mem_cons, List.not_mem_nil, or_false] at hfirst
            rcases hfirst with rfl | rfl | rfl <;> exact absurd hb (by decide)
        · exact List.mem_cons_of_mem _ (List.mem_of_mem_drop (ih hlater))

theorem validUtf8_lossy (s : Bytes) : validUtf8 (lossy s) = true := validUtf8_lossyAux _ _

/-! ## White space and lines -/

/-- The UTF-8 encodings of the Unicode `White_Space` characters. -/
def whiteSpace : List Bytes :=
  [[9], [10], [11], [12], [13], [32], [0xC2, 0x85], [0xC2, 0xA0], [0xE1, 0x9A, 0x80],
   [0xE2, 0x80, 0x80], [0xE2, 0x80, 0x81], [0xE2, 0x80, 0x82], [0xE2, 0x80, 0x83],
   [0xE2, 0x80, 0x84], [0xE2, 0x80, 0x85], [0xE2, 0x80, 0x86], [0xE2, 0x80, 0x87],
   [0xE2, 0x80, 0x88], [0xE2, 0x80, 0x89], [0xE2, 0x80, 0x8A], [0xE2, 0x80, 0xA8],
   [0xE2, 0x80, 0xA9], [0xE2, 0x80, 0xAF], [0xE2, 0x81, 0x9F], [0xE3, 0x80, 0x80]]

/-- Strip members of `table` off the front, at most `n` of them. -/
def stripFront (table : List Bytes) : Nat → Bytes → Bytes
  | 0, s => s
  | n + 1, s =>
      match table.find? (fun w => w.isPrefixOf s) with
      | some w => stripFront table n (s.drop w.length)
      | none => s

/-- `str::trim`. -/
def trim (s : Bytes) : Bytes :=
  let front := stripFront whiteSpace s.length s
  (stripFront (whiteSpace.map List.reverse) front.length front.reverse).reverse

/-- A front that starts like no member of the table is left alone. -/
theorem stripFront_eq_self {table : List Bytes} {n : Nat} {s : Bytes} (hne : [] ∉ table)
    (h : ∀ w ∈ table, ∀ b, w.head? = some b → s.head? ≠ some b) : stripFront table n s = s := by
  cases n with
  | zero => rfl
  | succ n =>
      have hnone : table.find? (fun w => w.isPrefixOf s) = none := by
        apply List.find?_eq_none.mpr
        intro w hw hpre
        obtain ⟨rest, rfl⟩ := List.isPrefixOf_iff_prefix.mp hpre
        cases w with
        | nil => exact hne hw
        | cons b w => exact h _ hw b rfl rfl
      simp only [stripFront, hnone]

/-- Is the byte a printing ASCII character? -/
abbrev Printing (b : UInt8) : Prop := 33 ≤ b ∧ b ≤ 126

theorem whiteSpace_not_printing : ∀ w ∈ whiteSpace ++ whiteSpace.map List.reverse,
    w ≠ [] ∧ ∀ b ∈ w.head?, ¬ Printing b := by
  decide +kernel

/-- Printing characters are not stripped. -/
theorem stripFront_printing {table : List Bytes} {n : Nat} {s : Bytes}
    (htable : ∀ w ∈ table, w ∈ whiteSpace ++ whiteSpace.map List.reverse)
    (hs : ∀ b ∈ s, Printing b) : stripFront table n s = s := by
  apply stripFront_eq_self
  · intro hnil
    exact (whiteSpace_not_printing _ (htable _ hnil)).1 rfl
  · intro w hw b hb hhead
    exact (whiteSpace_not_printing w (htable w hw)).2 b hb
      (hs b (List.mem_of_mem_head? hhead))

/-- Text without blanks has nothing to trim. -/
theorem trim_printing {s : Bytes} (hs : ∀ b ∈ s, Printing b) : trim s = s := by
  unfold trim
  simp only
  rw [stripFront_printing (fun w hw => List.mem_append_left _ hw) hs,
    stripFront_printing (fun w hw => List.mem_append_right _ hw) (by simpa using hs),
    List.reverse_reverse]

/-- A line is read back without its line feed. -/
theorem trim_line {s : Bytes} (hne : s ≠ []) (hs : ∀ b ∈ s, Printing b) :
    trim (s ++ [10]) = s := by
  obtain ⟨b, rest, rfl⟩ := List.exists_cons_of_ne_nil hne
  have hfront : stripFront whiteSpace (b :: rest ++ [10]).length (b :: rest ++ [10]) =
      b :: rest ++ [10] := by
    apply stripFront_eq_self (by decide)
    intro w hw c hc hhead
    cases hhead
    exact (whiteSpace_not_printing w (List.mem_append_left _ hw)).2 b hc
      (hs b List.mem_cons_self)
  have hfeed : (whiteSpace.map List.reverse).find?
      (fun w => w.isPrefixOf ((b :: rest ++ [10]).reverse)) = some [10] := by
    rw [List.reverse_append]
    rfl
  unfold trim
  simp only
  rw [hfront, List.length_append, List.length_singleton, stripFront, hfeed]
  simp only
  rw [List.reverse_append, List.reverse_singleton, List.length_singleton, List.singleton_append,
    List.drop_succ_cons, List.drop_zero,
    stripFront_printing (fun w hw => List.mem_append_right _ hw)
      fun c hc => hs c (List.mem_reverse.mp hc), List.reverse_reverse]

/-- Drop one trailing carriage return. -/
def stripCr (line : Bytes) : Bytes :=
  if line.getLast? = some 13 then line.dropLast else line

/-- Lines of a file, `acc` being the part of the current line already read,
newest byte first.  A last line without its line feed still counts. -/
def fileLinesAux (acc : Bytes) : Bytes → List Bytes
  | [] => if acc = [] then [] else [acc.reverse]
  | b :: rest =>
      if b = 10 then stripCr acc.reverse :: fileLinesAux [] rest
      else fileLinesAux (b :: acc) rest

/-- The lines of a file, without their line ends. -/
def fileLines (s : Bytes) : List Bytes := fileLinesAux [] s

/-- Reading lines takes a line up to its end, with what was read before. -/
theorem fileLinesAux_append {acc line rest : Bytes} (h : 10 ∉ line) :
    fileLinesAux acc (line ++ 10 :: rest) =
      stripCr (acc.reverse ++ line) :: fileLinesAux [] rest := by
  induction line generalizing acc with
  | nil => simp [fileLinesAux]
  | cons b line ih =>
      have hb : b ≠ 10 := fun heq => h (by simp [heq])
      rw [List.cons_append, fileLinesAux, if_neg hb, ih fun hin => h (List.mem_cons_of_mem _ hin)]
      simp

/-- A file that starts with a finished line. -/
theorem fileLines_append {line rest : Bytes} (h : 10 ∉ line) :
    fileLines (line ++ 10 :: rest) = stripCr line :: fileLines rest :=
  fileLinesAux_append h

/-- A text of whole lines. -/
def Lined (s : Bytes) : Prop := s = [] ∨ ∃ pre, s = pre ++ [10]

theorem lined_append (s line : Bytes) : Lined (s ++ (line ++ [10])) :=
  Or.inr ⟨s ++ line, by rw [List.append_assoc]⟩

/-- A log is read line by line: what ends in a newline is read for itself. -/
theorem fileLinesAux_lined {acc pre rest : Bytes} :
    fileLinesAux acc (pre ++ 10 :: rest) =
      fileLinesAux acc (pre ++ [10]) ++ fileLinesAux [] rest := by
  induction pre generalizing acc with
  | nil => simp [fileLinesAux]
  | cons b pre ih =>
      by_cases hb : b = 10
      · simp only [List.cons_append, fileLinesAux, if_pos hb, ih]
      · simp only [List.cons_append, fileLinesAux, if_neg hb, ih]

/-- What is appended to whole lines adds its own. -/
theorem fileLines_lined {s rest : Bytes} (h : Lined s) :
    fileLines (s ++ rest) = fileLines s ++ fileLines rest := by
  rcases h with rfl | ⟨pre, rfl⟩
  · rfl
  · rw [List.append_assoc]
    exact fileLinesAux_lined

/-! ## Numbers -/

/-- Decimal digits of `n`, on a budget of digits. -/
def decimalAux : Nat → Nat → Bytes
  | 0, _ => []
  | fuel + 1, n =>
      (if n < 10 then [] else decimalAux fuel (n / 10)) ++ [UInt8.ofNat (48 + n % 10)]

/-- A number in decimal, as `{}` prints it. -/
def decimal (n : Nat) : Bytes := decimalAux (n + 1) n

/-- The digits are ASCII digits. -/
theorem decimalAux_digit {fuel n : Nat} {b : UInt8} (h : b ∈ decimalAux fuel n) :
    48 ≤ b ∧ b ≤ 57 := by
  induction fuel generalizing n with
  | zero => simp [decimalAux] at h
  | succ fuel ih =>
      rcases List.mem_append.mp h with hfront | hlast
      · by_cases hn : n < 10
        · simp [hn] at hfront
        · exact ih (by simpa [hn] using hfront)
      · have hb : b = UInt8.ofNat (48 + n % 10) := by simpa using hlast
        subst hb
        have hdigit : ∀ d, d < 10 → 48 ≤ UInt8.ofNat (48 + d) ∧ UInt8.ofNat (48 + d) ≤ 57 := by
          decide
        exact hdigit _ (Nat.mod_lt _ (by decide))

theorem decimal_digit {n : Nat} {b : UInt8} (h : b ∈ decimal n) : 48 ≤ b ∧ b ≤ 57 :=
  decimalAux_digit h

theorem decimal_ne_nil (n : Nat) : decimal n ≠ [] := by
  simp [decimal, decimalAux]

/-- The number that a string of digits spells. -/
def digitsValue (s : Bytes) : Nat := s.foldl (fun v b => v * 10 + (b.toNat - 48)) 0

/-- The digits of a number have its value. -/
theorem digitsValue_decimalAux {fuel n : Nat} (h : n < fuel) :
    digitsValue (decimalAux fuel n) = n := by
  induction fuel generalizing n with
  | zero => omega
  | succ fuel ih =>
      have hdigit : ∀ d, d < 10 → (UInt8.ofNat (48 + d)).toNat - 48 = d := by decide
      have hlast := hdigit (n % 10) (Nat.mod_lt _ (by decide))
      rw [decimalAux, digitsValue, List.foldl_append, List.foldl_cons, List.foldl_nil, hlast]
      by_cases hn : n < 10
      · rw [if_pos hn, List.foldl_nil]
        omega
      · have hfront : digitsValue (decimalAux fuel (n / 10)) = n / 10 := ih (by omega)
        rw [if_neg hn]
        rw [digitsValue] at hfront
        rw [hfront]
        omega

/-- `u64::from_str`: a leading plus sign is allowed. -/
def parseU64 (s : Bytes) : Option UInt64 :=
  let digits := if s.head? = some 43 then s.tail else s
  if digits = [] ∨ ∃ b ∈ digits, ¬ (48 ≤ b ∧ b ≤ 57) then none
  else if digitsValue digits < 2 ^ 64 then some (UInt64.ofNat (digitsValue digits))
  else none

/-- Decimal digits print. -/
theorem decimal_printing {n : Nat} {b : UInt8} (h : b ∈ decimal n) : Printing b := by
  obtain ⟨hlow, hhigh⟩ := decimal_digit h
  rw [UInt8.le_iff_toNat_le] at hlow hhigh
  constructor <;> rw [UInt8.le_iff_toNat_le]
  · exact le_trans (by decide) hlow
  · exact le_trans hhigh (by decide)

/-- A number written on a line is read back. -/
theorem parseU64_line (n : UInt64) : parseU64 (trim (decimal n.toNat ++ [10])) = some n := by
  have hplus : (decimal n.toNat).head? ≠ some 43 := by
    intro hhead
    exact absurd (decimal_digit (List.mem_of_mem_head? hhead)).1 (by decide)
  have hvalue : digitsValue (decimal n.toNat) = n.toNat := digitsValue_decimalAux (by omega)
  have hdigits : ¬ (decimal n.toNat = [] ∨ ∃ b ∈ decimal n.toNat, ¬ (48 ≤ b ∧ b ≤ 57)) := by
    intro hbad
    rcases hbad with hnil | ⟨b, hb, hnot⟩
    · exact decimal_ne_nil _ hnil
    · exact hnot (decimal_digit hb)
  rw [trim_line (decimal_ne_nil _) fun b hb => decimal_printing hb]
  unfold parseU64
  simp only
  rw [if_neg hplus, if_neg hdigits, hvalue, if_pos n.toNat_lt, UInt64.ofNat_toNat]

/-! ## Hexadecimal -/

/-- A nibble as a lower-case hexadecimal digit. -/
def hexDigit (n : Nat) : UInt8 := UInt8.ofNat (if n < 10 then 48 + n else 87 + n)

/-- The value of a hexadecimal digit of either case. -/
def hexValue (c : UInt8) : Option Nat :=
  if 48 ≤ c ∧ c ≤ 57 then some (c.toNat - 48)
  else if 97 ≤ c ∧ c ≤ 102 then some (c.toNat - 87)
  else if 65 ≤ c ∧ c ≤ 70 then some (c.toNat - 55)
  else none

/-- `hex::encode`. -/
def hexEncode : Bytes → Bytes
  | [] => []
  | b :: rest => hexDigit (b.toNat / 16) :: hexDigit (b.toNat % 16) :: hexEncode rest

/-- `hex::decode`; `none` for an odd length or a byte that is no digit. -/
def hexDecode : Bytes → Option Bytes
  | [] => some []
  | [_] => none
  | hi :: lo :: rest =>
      match hexValue hi, hexValue lo, hexDecode rest with
      | some h, some l, some bs => some (UInt8.ofNat (16 * h + l) :: bs)
      | _, _, _ => none

@[simp] theorem hexEncode_length (s : Bytes) : (hexEncode s).length = 2 * s.length := by
  induction s with
  | nil => rfl
  | cons b rest ih => simp only [hexEncode, List.length_cons, ih]; omega

theorem hexValue_hexDigit : ∀ {n : Nat}, n < 16 → hexValue (hexDigit n) = some n := by
  decide

/-- Decoding undoes encoding. -/
@[simp] theorem hexDecode_hexEncode (s : Bytes) : hexDecode (hexEncode s) = some s := by
  induction s with
  | nil => rfl
  | cons b rest ih =>
      have hlt : b.toNat < 256 := b.toNat_lt
      have hhi := hexValue_hexDigit (n := b.toNat / 16) (by omega)
      have hlo := hexValue_hexDigit (n := b.toNat % 16) (by omega)
      have hsum : 16 * (b.toNat / 16) + b.toNat % 16 = b.toNat := by omega
      simp [hexEncode, hexDecode, hhi, hlo, ih, hsum]

theorem hexEncode_injective : Function.Injective hexEncode := by
  intro s t h
  have h' := congrArg hexDecode h
  simpa using h'

/-- Encoded text consists of digits and the letters `a` to `f`. -/
theorem hexEncode_digit {s : Bytes} {c : UInt8} (h : c ∈ hexEncode s) :
    (48 ≤ c ∧ c ≤ 57) ∨ (97 ≤ c ∧ c ≤ 102) := by
  have hdigit : ∀ n, n < 16 →
      (48 ≤ hexDigit n ∧ hexDigit n ≤ 57) ∨ (97 ≤ hexDigit n ∧ hexDigit n ≤ 102) := by
    decide
  induction s with
  | nil => simp [hexEncode] at h
  | cons b rest ih =>
      have hlt : b.toNat < 256 := b.toNat_lt
      simp only [hexEncode, List.mem_cons] at h
      rcases h with rfl | rfl | h
      · exact hdigit _ (by omega)
      · exact hdigit _ (by omega)
      · exact ih h

/-- Hexadecimal text is printing text. -/
theorem printing_hexEncode (s : Bytes) : ∀ b ∈ hexEncode s, Printing b := by
  intro b hb
  rcases hexEncode_digit hb with hdigit | hletter
  · exact ⟨UInt8.le_trans (by decide) hdigit.1, UInt8.le_trans hdigit.2 (by decide)⟩
  · exact ⟨UInt8.le_trans (by decide) hletter.1, UInt8.le_trans hletter.2 (by decide)⟩

@[simp] theorem validUtf8_hexEncode (s : Bytes) : validUtf8 (hexEncode s) = true := by
  apply validUtf8_ascii
  intro b hb
  exact UInt8.lt_of_le_of_lt (printing_hexEncode s b hb).2 (by decide)

@[simp] theorem trim_hexEncode (s : Bytes) : trim (hexEncode s) = hexEncode s :=
  trim_printing (printing_hexEncode s)

/-! ## Replacing a character -/

/-- `s.replace(c, text)` for a single character. -/
def replaceWith {α : Type} [DecidableEq α] (c : α) (text s : List α) : List α :=
  s.flatMap fun b => if b = c then text else [b]

section

variable {α : Type} [DecidableEq α] (c : α) (text : List α)

@[simp] theorem replaceWith_nil : replaceWith c text [] = [] := rfl

theorem replaceWith_cons (b : α) (s : List α) :
    replaceWith c text (b :: s) = (if b = c then text else [b]) ++ replaceWith c text s := rfl

theorem replaceWith_append (s t : List α) :
    replaceWith c text (s ++ t) = replaceWith c text s ++ replaceWith c text t :=
  List.flatMap_append

/-- Where there is nothing to replace the text stays. -/
theorem replaceWith_eq_self {s : List α} (h : c ∉ s) : replaceWith c text s = s := by
  induction s with
  | nil => rfl
  | cons b s ih =>
      have hb : b ≠ c := fun heq => h (heq ▸ List.mem_cons_self)
      rw [replaceWith_cons, if_neg hb, ih fun hmem => h (List.mem_cons_of_mem b hmem)]
      rfl

end

/-! ## Characters -/

/-- The UTF-8 bytes of a string of characters. -/
def encode (s : List Char) : Bytes := s.flatMap String.utf8EncodeChar

/-- The characters of a UTF-8 string. -/
def decode (s : Bytes) : Option (List Char) := s.toByteArray.utf8Decode?.map Array.toList

theorem decode_encode (s : List Char) : decode (encode s) = some s := by
  have hbytes : (encode s).toByteArray = s.utf8Encode := rfl
  simp [decode, hbytes]

theorem encode_append (s t : List Char) : encode (s ++ t) = encode s ++ encode t :=
  List.flatMap_append

/-- An ASCII character is one byte. -/
theorem utf8EncodeChar_ascii {c : Char} (h : c.toNat < 128) :
    String.utf8EncodeChar c = [UInt8.ofNat c.toNat] := by
  have hsmall : c.val.toNat ≤ 127 := Nat.le_of_lt_succ h
  rw [String.utf8EncodeChar]
  exact if_pos hsmall

theorem ofNat_high {n : Nat} (h : 128 ≤ n) (hbyte : n < 256) : 128 ≤ UInt8.ofNat n := by
  rw [UInt8.le_iff_toNat_le, UInt8.toNat_ofNat_of_lt' hbyte]
  exact h

/-- The bytes of another character all lie outside ASCII. -/
theorem utf8EncodeChar_high {c : Char} (h : 128 ≤ c.toNat) {b : UInt8}
    (hb : b ∈ String.utf8EncodeChar c) : 128 ≤ b := by
  have hbig : ¬ c.val.toNat ≤ 127 := Nat.not_le_of_lt h
  simp only [String.utf8EncodeChar, if_neg hbig] at hb
  split at hb
  · simp only [List.mem_cons, List.not_mem_nil, or_false] at hb
    obtain rfl | rfl := hb <;> exact ofNat_high (by omega) (by omega)
  · split at hb
    · simp only [List.mem_cons, List.not_mem_nil, or_false] at hb
      obtain rfl | rfl | rfl := hb <;> exact ofNat_high (by omega) (by omega)
    · simp only [List.mem_cons, List.not_mem_nil, or_false] at hb
      obtain rfl | rfl | rfl | rfl := hb <;> exact ofNat_high (by omega) (by omega)

/-- Replacing an ASCII character is the same on characters and on bytes: no
other character has that byte. -/
theorem encode_replaceWith {c : Char} (hc : c.toNat < 128) (text s : List Char) :
    encode (replaceWith c text s) =
      replaceWith (UInt8.ofNat c.toNat) (encode text) (encode s) := by
  induction s with
  | nil => rfl
  | cons d s ih =>
      have hcons : encode (d :: s) = String.utf8EncodeChar d ++ encode s := rfl
      rw [replaceWith_cons, encode_append, ih, hcons, replaceWith_append]
      congr 1
      by_cases hd : d = c
      · subst hd
        rw [if_pos rfl, utf8EncodeChar_ascii hc, replaceWith_cons, if_pos rfl, replaceWith_nil,
          List.append_nil]
      · have hother : UInt8.ofNat c.toNat ∉ String.utf8EncodeChar d := by
          by_cases hd128 : d.toNat < 128
          · rw [utf8EncodeChar_ascii hd128, List.mem_singleton]
            intro hbyte
            have hnat : c.toNat = d.toNat := by
              have := congrArg UInt8.toNat hbyte
              rwa [UInt8.toNat_ofNat_of_lt' (Nat.lt_trans hc (by decide)),
                UInt8.toNat_ofNat_of_lt' (Nat.lt_trans hd128 (by decide))] at this
            exact hd (Char.toNat_inj.mp hnat.symm)
          · intro hmem
            have hhigh := utf8EncodeChar_high (Nat.le_of_not_lt hd128) hmem
            rw [UInt8.le_iff_toNat_le,
              UInt8.toNat_ofNat_of_lt' (Nat.lt_trans hc (by decide))] at hhigh
            exact absurd hc (Nat.not_lt_of_le hhigh)
        have hsingle : encode [d] = String.utf8EncodeChar d := List.append_nil _
        rw [if_neg hd, replaceWith_eq_self _ _ hother, hsingle]

end ByteStr
