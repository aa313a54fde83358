import Respawn.Kernel

/-!
# Hashes, errors, paths and the running process

The crate root: the hash type, the constants, the error type, `sanitize_rel`
and `tmp_path`.  A `Machine` is the world a process runs in together with the
process's own state, and `Sys` is a computation on it that may return an
`Error`, as every fallible function of the crate does.  `io` is the `?` that
turns a failed system call into `Error::Io`.

Text is bytes throughout: a Rust `String` is a byte string that happens to be
well-formed UTF-8.
-/

namespace Respawn

open ByteStr FileTree StateLogic

/-- A 256-bit content address. -/
abbrev Hash := { h : Bytes // h.length = 32 }

instance : LawfulBEq Hash := inferInstance

/-- Format a hash as lower-case hexadecimal. -/
def hashHex (h : Hash) : Bytes := hexEncode h.val

/-- Short hash prefix for display. -/
def short (h : Hash) : Bytes := hexEncode (h.val.take 6)

@[simp] theorem hashHex_length (h : Hash) : (hashHex h).length = 64 := by
  simp [hashHex, h.property]

theorem hashHex_injective : Function.Injective hashHex := by
  intro g h heq
  exact Subtype.ext (hexEncode_injective heq)

/-- Directory inside the worktree that holds all fabric state. -/
def FABRIC_DIR : Name := str ".respawn"

/-- Content-defined chunking bounds. -/
def CDC_MIN : Nat := 16 * 1024

def CDC_AVG : Nat := 64 * 1024

def CDC_MAX : Nat := 256 * 1024

/-- Largest object the store will decompress on read. -/
def MAX_OBJECT_SIZE : Nat := CDC_MAX

/-- Why an operation fails. -/
inductive Error
  | io (e : Errno)
  | corrupt (m : Bytes)
  | missingObject (h : Hash)
  | notInitialized
  | badHash (m : Bytes)
  | sync (m : Bytes)
  | unsafePath (p : Bytes)
  | locked (m : Bytes)
  deriving DecidableEq

/-- Parse a 64-digit hexadecimal string into a hash. -/
def parseHash (s : Bytes) : Except Error Hash :=
  match hexDecode s with
  | none => .error (.badHash s)
  | some bytes => if h : bytes.length = 32 then .ok ⟨bytes, h⟩ else .error (.badHash s)

@[simp] theorem parseHash_hashHex (h : Hash) : parseHash (hashHex h) = .ok h := by
  simp [parseHash, hashHex, h.property]

/-- True if `name` is exactly 64 lower-case hexadecimal digits, the on-disk
shape of object and manifest ids. -/
def isHashName (name : Bytes) : Bool :=
  name.length = 64 && name.all fun b => (48 ≤ b && b ≤ 57) || (97 ≤ b && b ≤ 102)

/-! ## Relative paths -/

/-- `std::path::Component`, on Unix. -/
inductive Component
  | rootDir
  | curDir
  | parentDir
  | normal (n : Name)
  deriving DecidableEq

/-- `matches!(c, Component::Normal(_))` -/
def Component.isNormal : Component → Bool
  | .normal _ => true
  | _ => false

/-- One piece between separators as a component; an empty piece and a `.` that
does not stand first are no components. -/
def pieceComponent (s : Name) : Option Component :=
  if s = [] ∨ s = dot then none
  else if s = dotdot then some .parentDir
  else some (.normal s)

/-- `Path::components`. -/
def components (p : Bytes) : List Component :=
  let pieces := p.splitOn slash
  (if p.head? = some slash then [.rootDir]
    else if pieces.head? = some dot then [.curDir] else []) ++
    pieces.filterMap pieceComponent

/-- The names a path's components carry. -/
def normalNames (p : Bytes) : List Name :=
  (components p).filterMap fun
    | .normal n => some n
    | _ => none

/-- A relative path that may be joined under the worktree root: the text it
was given as, its components, and whether the text asks for a directory by
ending in a separator. -/
structure RelPath where
  text : Bytes
  comps : List Name
  dirOnly : Bool
  nonempty : comps ≠ []
  valid : ∀ n ∈ comps, ValidName n

/-- The names are pieces between separators. -/
theorem piece_of_mem_normalNames {p : Bytes} {n : Name} (h : n ∈ normalNames p) :
    n ∈ p.splitOn slash ∧ pieceComponent n = some (.normal n) := by
  obtain ⟨c, hc, hn⟩ := List.mem_filterMap.mp h
  have hnormal : c = .normal n := by
    cases c <;> simp_all
  subst hnormal
  have hpiece : Component.normal n ∈ (p.splitOn slash).filterMap pieceComponent := by
    unfold components at hc
    rcases List.mem_append.mp hc with hfront | hbody
    · split at hfront
      · simp at hfront
      · split at hfront <;> simp at hfront
    · exact hbody
  obtain ⟨s, hs, hcomp⟩ := List.mem_filterMap.mp hpiece
  have hsn : s = n := by
    unfold pieceComponent at hcomp
    split at hcomp
    · cases hcomp
    · split at hcomp
      · cases hcomp
      · simpa using hcomp
  subst hsn
  exact ⟨hs, hcomp⟩

/-- The names between the slashes of a path without a zero byte are valid. -/
theorem validName_of_mem_normalNames {p : Bytes} {n : Name} (hnul : 0 ∉ p)
    (h : n ∈ normalNames p) : ValidName n := by
  obtain ⟨hs, hcomp⟩ := piece_of_mem_normalNames h
  unfold pieceComponent at hcomp
  split at hcomp
  · cases hcomp
  case _ hne =>
    split at hcomp
    · cases hcomp
    case _ hdd =>
      obtain ⟨hempty, hdot⟩ := not_or.mp hne
      refine ⟨hempty, hdot, hdd, ?_, ?_⟩
      · intro hmem
        exact (mem_splitOn hs hmem).1 rfl
      · intro hmem
        exact hnul (mem_splitOn hs hmem).2

/-- A path with no root and no leading `.` whose components are all plain has
a plain component: its first piece. -/
theorem normalNames_ne_nil {p : Bytes} (hp : p ≠ [])
    (hnormal : ∀ c ∈ components p, c.isNormal = true) : normalNames p ≠ [] := by
  intro hnil
  have hcomps : components p = [] := by
    apply List.eq_nil_iff_forall_not_mem.mpr
    intro c hc
    obtain ⟨n, rfl⟩ : ∃ n, c = .normal n := by
      have hc' := hnormal c hc
      cases c with
      | normal n => exact ⟨n, rfl⟩
      | _ => cases hc'
    have hmem : n ∈ normalNames p := List.mem_filterMap.mpr ⟨_, hc, rfl⟩
    simp [hnil] at hmem
  unfold components at hcomps
  obtain ⟨hfront, hbody⟩ := List.append_eq_nil_iff.mp hcomps
  have hhead : p.head? ≠ some slash := by
    intro h
    simp [h] at hfront
  rw [if_neg hhead] at hfront
  have hdot : (p.splitOn slash).head? ≠ some dot := by
    intro h
    simp [h] at hfront
  -- the first piece is not empty, for the path does not start with a separator
  cases hs : p.splitOn slash with
  | nil => simp at hs
  | cons first rest =>
      have hne : first ≠ [] := by
        intro hempty
        subst hempty
        cases p with
        | nil => exact hp rfl
        | cons b tail =>
            have hb : b ≠ slash := by simpa using hhead
            rw [List.splitOn, List.splitOnP_cons_eq_if_splitOnPPrepend,
              if_neg (by simpa using hb), List.splitOnPPrepend_eq_modifyHead] at hs
            cases ht : tail.splitOnP (· == slash) with
            | nil => simp at ht
            | cons x xs => simp [ht, List.modifyHead] at hs
      have hnone := List.filterMap_eq_nil_iff.mp hbody first (by simp [hs])
      unfold pieceComponent at hnone
      rw [if_neg] at hnone
      · split at hnone <;> cases hnone
      · rw [hs] at hdot
        simpa [hne] using hdot

/-- A relative path is only acceptable if every component is a plain name and
it has no NUL byte and no foreign separator. -/
def sanitizeRel (p : Bytes) : Except Error RelPath :=
  if h : p = [] ∨ p.length > 1024 ∨ 0 ∈ p ∨ backslash ∈ p then .error (.unsafePath p)
  else if p.head? = some slash then .error (.unsafePath p)
  else if hn : ∀ c ∈ components p, c.isNormal = true then
    .ok { text := p
          comps := normalNames p
          dirOnly := (p.splitOn slash).getLast? = some [] ∨ (p.splitOn slash).getLast? = some dot
          nonempty := normalNames_ne_nil (fun hp => h (Or.inl hp)) hn
          valid := fun _ => validName_of_mem_normalNames fun h0 => h (by simp [h0]) }
  else .error (.unsafePath p)

/-- `root.join(rel)` as the kernel walks it. -/
def RelPath.under (rel : RelPath) (root : Path) : Path :=
  root ++ rel.comps ++ if rel.dirOnly then [dot] else []

/-- `Path::display` of an absolute path. -/
def display (p : Path) : Bytes := lossy (slash :: joinSlash p)

/-- A path relative to the worktree root in the form manifests use. -/
def relStr (rel : Path) : Bytes := replaceByte backslash slash (lossy (joinSlash rel))

/-- Directory components no snapshot and no removal looks into.  `snapshot`,
`revert` and `drift` each have this function. -/
def excludedNames : List Name := [FABRIC_DIR, str ".git", str ".DS_Store"]

/-- Does the path have one of these components? -/
def excludedBy (names : List Name) (rel : Path) : Bool :=
  rel.any fun c => lossy c ∈ names

/-- A path of plain names is spelled by joining them. -/
theorem relStr_eq_joinSlash {rel : Path} (hvalid : ∀ n ∈ rel, validUtf8 n = true)
    (hback : ∀ n ∈ rel, backslash ∉ n) : relStr rel = joinSlash rel := by
  unfold relStr
  rw [lossy_eq_self (validUtf8_joinSlash hvalid)]
  apply replaceByte_eq_self
  intro hmem
  rcases mem_joinSlash hmem with heq | ⟨n, hn, hb⟩
  · exact absurd heq (by decide)
  · exact hback n hn hb

/-- What a path that is accepted is made of. -/
theorem plain_of_sanitizeRel {p : Bytes} {rel : RelPath} (h : sanitizeRel p = .ok rel) :
    (0 ∉ p ∧ backslash ∉ p) ∧ ∀ c ∈ components p, c.isNormal = true := by
  unfold sanitizeRel at h
  split at h
  · cases h
  case _ hshape =>
    split at h
    · cases h
    · split at h
      case _ hnormal =>
        exact ⟨⟨fun h0 => hshape (by simp [h0]), fun hb => hshape (by simp [hb])⟩, hnormal⟩
      · cases h

/-- The path that spells proper names is read back as those names. -/
theorem sanitizeRel_joinSlash {rel : List Name} {r : RelPath} (hne : rel ≠ [])
    (hvalid : ∀ n ∈ rel, ValidName n) (h : sanitizeRel (joinSlash rel) = .ok r) :
    r.comps = rel ∧ r.dirOnly = false := by
  have hsplit : (joinSlash rel).splitOn slash = rel :=
    splitOn_joinSlash hne fun n hn => (hvalid n hn).2.2.2.1
  have hpiece : ∀ n ∈ rel, pieceComponent n = some (.normal n) := by
    intro n hn
    obtain ⟨hempty, hdot, hdotdot, _⟩ := hvalid n hn
    simp [pieceComponent, hempty, hdot, hdotdot]
  have hnames : normalNames (joinSlash rel) = rel := by
    unfold normalNames components
    rw [hsplit, List.filterMap_append]
    have hfront : ∀ c, List.filterMap (fun c : Component => match c with
        | .normal n => some n
        | _ => none) (if (joinSlash rel).head? = some slash then [.rootDir]
          else if rel.head? = some c then [.curDir] else []) = [] := by
      intro c
      split
      · rfl
      · split <;> rfl
    rw [hfront, List.nil_append, List.filterMap_filterMap]
    calc rel.filterMap _ = rel.filterMap some := by
          apply List.filterMap_congr
          intro n hn
          rw [hpiece n hn]
          rfl
      _ = rel := List.filterMap_some
  unfold sanitizeRel at h
  split at h
  · cases h
  · split at h
    · cases h
    · split at h
      · cases h
        refine ⟨hnames, ?_⟩
        have hlast : ∀ n, rel.getLast? = some n → n ≠ [] ∧ n ≠ dot := fun n hn =>
          ⟨(hvalid n (List.mem_of_getLast? hn)).1, (hvalid n (List.mem_of_getLast? hn)).2.1⟩
        simp only [hsplit, decide_eq_false_iff_not, not_or]
        exact ⟨fun hn => (hlast _ hn).1 rfl, fun hn => (hlast _ hn).2 rfl⟩
      · cases h

/-- Different proper paths are spelled differently. -/
theorem joinSlash_injective {p q : List Name} (hp : p ≠ []) (hq : q ≠ [])
    (hpv : ∀ n ∈ p, ValidName n) (hqv : ∀ n ∈ q, ValidName n) (h : joinSlash p = joinSlash q) :
    p = q := by
  rw [← splitOn_joinSlash hp fun n hn => (hpv n hn).2.2.2.1, h,
    splitOn_joinSlash hq fun n hn => (hqv n hn).2.2.2.1]

/-! ## The process -/

/-- The login keychain of the session a process runs in: is its use switched
off by the environment, which items it holds, and the error texts with which
it refuses to be read or written. -/
structure Keychain where
  macos : Bool
  disabled : Bool
  items : Bytes → Option Bytes
  getError : Option Bytes
  setError : Option Bytes

/-- A process and the world it runs in, with the random strings the system
will hand out. -/
structure Machine extends World where
  pid : Nat
  tmpCounter : Nat
  keychain : Keychain
  entropy : List { b : Bytes // b.length = 32 }

/-- A process on this disk that has done nothing yet, where there is no keychain. -/
def Machine.start (fs : Fs) : Machine where
  fs := fs
  trace := []
  clock := 0
  pid := 1
  tmpCounter := 0
  keychain := ⟨false, true, fun _ => none, none, none⟩
  entropy := []

/-- A fallible computation of the crate. -/
abbrev Sys := EStateM Error Machine

/-- Run system calls; a failure becomes `Error::Io`. -/
def io {α : Type} (k : Kernel α) : Sys α := fun m =>
  match k m.toWorld with
  | .ok a w => .ok a { m with toWorld := w }
  | .error e w => .error (.io e) { m with toWorld := w }

theorem io_eq_ok {α : Type} {k : Kernel α} {m m' : Machine} {a : α} :
    io k m = .ok a m' ↔ ∃ w', k m.toWorld = .ok a w' ∧ m' = { m with toWorld := w' } := by
  unfold io
  cases k m.toWorld <;> simp [eq_comm]

/-- A call fails with the error of the system, and the machine is then as the
call left it. -/
theorem io_eq_error {α : Type} {k : Kernel α} {m m' : Machine} {e : Error} :
    io k m = .error e m' ↔
      ∃ no w', k m.toWorld = .error no w' ∧ e = .io no ∧ m' = { m with toWorld := w' } := by
  unfold io
  cases k m.toWorld <;> simp [eq_comm]

/-- Run system calls whose failure is ignored. -/
def ignore {α : Type} (k : Kernel α) : Sys Unit := fun m =>
  .ok () { m with toWorld := finalState (k m.toWorld) }

/-- The rule for system calls. -/
theorem after_io {α : Type} {k : Kernel α} {m : Machine} {Q : α → Machine → Prop}
    {E : Error → Machine → Prop}
    (h : After (k m.toWorld) (fun a w => Q a { m with toWorld := w })
      (fun e w => E (.io e) { m with toWorld := w })) : After (io k m) Q E := by
  unfold io
  cases hk : k m.toWorld with
  | ok a w => rw [hk] at h; exact h
  | error e w => rw [hk] at h; exact h

/-- Look at the disk. -/
def look {α : Type} (f : Fs → Except Error α) : Sys α := fun m =>
  match f m.fs with
  | .ok a => .ok a m
  | .error e => .error e m

theorem look_eq_ok {α : Type} {f : Fs → Except Error α} {m m' : Machine} {a : α} :
    look f m = .ok a m' ↔ f m.fs = .ok a ∧ m' = m := by
  unfold look
  cases f m.fs <;> simp [eq_comm]

theorem look_eq_error {α : Type} {f : Fs → Except Error α} {m m' : Machine} {e : Error} :
    look f m = .error e m' ↔ f m.fs = .error e ∧ m' = m := by
  unfold look
  cases f m.fs <;> simp [eq_comm]

/-- A look that only asks for something yields it. -/
theorem look_get {α : Type} (g : Fs → α) (m : Machine) :
    look (fun fs => .ok (g fs)) m = .ok (g m.fs) m := rfl

/-- The rule for a look at the disk. -/
theorem after_look {α : Type} {f : Fs → Except Error α} {m : Machine} {Q : α → Machine → Prop}
    {E : Error → Machine → Prop} (hok : ∀ a, f m.fs = .ok a → Q a m)
    (herr : ∀ e, f m.fs = .error e → E e m) : After (look f m) Q E := by
  unfold look
  cases h : f m.fs with
  | ok a => exact hok a h
  | error e => exact herr e h

/-- The rule for a look and what follows it. -/
theorem after_look_bind {α β : Type} {f : Fs → Except Error α} {g : α → Sys β} {m : Machine}
    {Q : β → Machine → Prop} {E : Error → Machine → Prop}
    (hok : ∀ a, f m.fs = .ok a → After (g a m) Q E) (herr : ∀ e, f m.fs = .error e → E e m) :
    After ((look f >>= g) m) Q E := by
  rw [bind_apply]
  unfold look
  cases h : f m.fs with
  | ok a => exact hok a h
  | error e => exact herr e h

theorem Keeps.look {α : Type} {I : Machine → Prop} {f : Fs → Except Error α} :
    Keeps I (look f) :=
  fun _ h => after_look (fun _ _ => h) fun _ _ => h

/-- Fail with a system error. -/
def ioErr {α : Type} : Except Errno α → Except Error α
  | .ok a => .ok a
  | .error e => .error (.io e)

/-- Seconds since 1970, zero for an earlier clock. -/
def unixSecs (t : Int) : Nat := (t / 1000000000).toNat

/-- The nanoseconds within the second, zero for a time before 1970. -/
def subsecNanos (t : Int) : Nat := if t < 0 then 0 else (t % 1000000000).toNat

/-- Unique temporary file name inside `dir`. -/
def tmpName (pid n : Nat) (tag : Bytes) : Name :=
  str ".tmp-" ++ decimal pid ++ str "-" ++ decimal n ++ str "-" ++ tag

/-- The name of a temporary file is a valid name. -/
theorem validName_tmpName {pid n : Nat} {tag : Bytes} (hslash : slash ∉ tag) (hnul : 0 ∉ tag) :
    ValidName (tmpName pid n tag) := by
  have hmem : ∀ b, b ∈ tmpName pid n tag →
      b ∈ str ".tmp-" ∨ (48 ≤ b ∧ b ≤ 57) ∨ b ∈ str "-" ∨ b ∈ tag := by
    intro b hb
    simp only [tmpName, List.mem_append] at hb
    rcases hb with ((((hb | hb) | hb) | hb) | hb) | hb
    · exact Or.inl hb
    · exact Or.inr (Or.inl (decimal_digit hb))
    · exact Or.inr (Or.inr (Or.inl hb))
    · exact Or.inr (Or.inl (decimal_digit hb))
    · exact Or.inr (Or.inr (Or.inl hb))
    · exact Or.inr (Or.inr (Or.inr hb))
  have hclean : ∀ b, b = slash ∨ b = 0 → b ∉ tag → b ∉ tmpName pid n tag := by
    intro b hb htag h
    rcases hmem b h with h | h | h | h
    · rcases hb with rfl | rfl <;> exact absurd h (by decide)
    · rcases hb with rfl | rfl <;> exact absurd h (by decide)
    · rcases hb with rfl | rfl <;> exact absurd h (by decide)
    · exact htag h
  have hstart : ∃ rest, tmpName pid n tag = 46 :: 116 :: rest := ⟨_, rfl⟩
  obtain ⟨rest, hrest⟩ := hstart
  refine ⟨by simp [hrest], by simp [hrest], by simp [hrest], ?_, ?_⟩
  · exact hclean slash (Or.inl rfl) hslash
  · exact hclean 0 (Or.inr rfl) hnul

def tmpPath (dir : Path) (tag : Bytes) : Sys Path := fun m =>
  .ok (dir ++ [tmpName m.pid m.tmpCounter tag]) { m with tmpCounter := m.tmpCounter + 1 }

end Respawn
