import Respawn.FileTree
import Respawn.StateLogic

/-!
# System calls

The calls of the standard library's file interface that a program can make,
over a `World`: a file system, the clock, and the list of changes made so far.
A call resolves the path it is given and then either fails and changes
nothing, or makes one `Event` at the physical path it resolved to.  The trace
is what crash and confinement statements quantify over: the file system is
always the one its events produce, so a prefix of the trace is a state the
disk was in.

Each changing call has a lemma for its success (`_ok`: what it resolved, what
was there, the event) and one for its failure (`_error`: the world is the old
one).  `createDirAll` is `std::fs::create_dir_all`, which tries the deepest
directory first and climbs while its parent is missing.
-/

namespace FileTree

open ByteStr StateLogic

/-- One change to the file system, at physical paths. -/
inductive Event
  | mkdir (p : Path)
  | create (p : Path) (mode : Nat) (t : Int)
  | write (p : Path) (data : Bytes) (t : Int)
  | truncate (p : Path) (t : Int)
  | rename (p q : Path)
  | chmod (p : Path) (mode : Nat)
  | unlink (p : Path)
  | rmdir (p : Path)
  deriving DecidableEq, Repr

/-- The physical paths an event creates, changes or removes. -/
def Event.paths : Event → List Path
  | .mkdir p | .create p _ _ | .write p _ _ | .truncate p _ | .chmod p _
  | .unlink p | .rmdir p => [p]
  | .rename p q => [p, q]

/-- Change the file at `p`, if there is one. -/
def Fs.modifyFile (fs : Fs) (p : Path) (f : FileData → FileData) : Fs :=
  match fs.get p with
  | some (.file d) => fs.put p (.file (f d))
  | _ => fs

/-- The effect of an event. -/
def Fs.exec (fs : Fs) : Event → Fs
  | .mkdir p => fs.put p .dir
  | .create p mode t => fs.put p (.file ⟨[], mode, t⟩)
  | .write p data t => fs.modifyFile p fun d => { d with bytes := d.bytes ++ data, mtime := t }
  | .truncate p t => fs.modifyFile p fun d => { d with bytes := [], mtime := t }
  | .rename p q =>
      match fs.leaf p with
      | some x => if p = q then fs else (fs.remove p).put q x
      | none => fs
  | .chmod p mode => fs.modifyFile p fun d => { d with mode }
  | .unlink p => if (fs.leaf p).isSome then fs.remove p else fs
  | .rmdir p => if fs.get p = some .dir then fs.remove p else fs

/-- A file that is changed has the change, and nothing else moves. -/
theorem Fs.get_modifyFile {fs : Fs} {p : Path} {d : FileData} (h : fs.get p = some (.file d))
    (f : FileData → FileData) (q : Path) :
    (fs.modifyFile p f).get q = if q = p then some (.file (f d)) else fs.get q := by
  unfold Fs.modifyFile
  rw [h]
  exact Fs.get_put (Fs.room_of_leaf h (by simp)) _ q

/-- Changing a file leaves the other nodes. -/
theorem Fs.get_modifyFile_of_ne {fs : Fs} {p q : Path} (hne : q ≠ p)
    (f : FileData → FileData) : (fs.modifyFile p f).get q = fs.get q := by
  unfold Fs.modifyFile
  split
  case _ d hd => rw [Fs.get_put (Fs.room_of_leaf hd (by simp)), if_neg hne]
  · rfl

/-- A rename puts the leaf in its new place and takes it from the old one. -/
theorem Fs.get_exec_rename {fs : Fs} {p q : Path} {x : Node} (h : fs.leaf p = some x)
    (hroom : fs.Room q) (r : Path) :
    (fs.exec (.rename p q)).get r =
      if r = q then some x else if r = p then none else fs.get r := by
  obtain ⟨hget, hx⟩ := fs.leaf_eq_some.mp h
  unfold Fs.exec
  simp only [h]
  by_cases hpq : p = q
  · subst hpq
    by_cases hr : r = p
    · subst hr; simp [hget]
    · simp [hr]
  · rw [if_neg hpq, Fs.get_put (Fs.room_remove hroom hget hx),
      Fs.get_remove (Fs.bare_of_leaf hget hx)]

/-- After an unlink the place is empty and the others are as they were. -/
theorem Fs.get_exec_unlink {fs : Fs} {p : Path} {x : Node} (h : fs.leaf p = some x) (r : Path) :
    (fs.exec (.unlink p)).get r = if r = p then none else fs.get r := by
  obtain ⟨hget, hx⟩ := fs.leaf_eq_some.mp h
  have hexec : fs.exec (.unlink p) = fs.remove p := by simp only [Fs.exec, h]; rfl
  rw [hexec, Fs.get_remove (Fs.bare_of_leaf hget hx)]

theorem Fs.get_exec_rmdir {fs : Fs} {p : Path} (h : fs.get p = some .dir) (hbare : fs.Bare p)
    (r : Path) : (fs.exec (.rmdir p)).get r = if r = p then none else fs.get r := by
  have hexec : fs.exec (.rmdir p) = fs.remove p := by simp only [Fs.exec, h]; rfl
  rw [hexec, Fs.get_remove hbare]

/-- Only the removal of a directory makes a difference to which are sealed. -/
theorem Fs.sealed_exec {fs : Fs} {e : Event} (h : ∀ p, e ≠ .rmdir p) :
    (fs.exec e).sealed = fs.sealed := by
  have hmodify : ∀ p f, (fs.modifyFile p f).sealed = fs.sealed := by
    intro p f
    unfold Fs.modifyFile
    split
    · exact Fs.sealed_put _ _
    · rfl
  cases e with
  | mkdir p => exact Fs.sealed_put _ _
  | create p mode t => exact Fs.sealed_put _ _
  | write p data t => exact hmodify _ _
  | truncate p t => exact hmodify _ _
  | chmod p mode => exact hmodify _ _
  | rename p q =>
      simp only [Fs.exec]
      split
      case _ x hx =>
        split
        · rfl
        · rw [Fs.sealed_put, Fs.sealed_remove_leaf hx]
      · rfl
  | unlink p =>
      simp only [Fs.exec]
      split
      case isTrue hsome =>
        obtain ⟨x, hx⟩ := Option.isSome_iff_exists.mp hsome
        exact Fs.sealed_remove_leaf hx
      · rfl
  | rmdir p => exact absurd rfl (h p)

/-- What is sealed after an event was sealed before. -/
theorem Fs.sealed_exec_subset (fs : Fs) (e : Event) : (fs.exec e).sealed ⊆ fs.sealed := by
  by_cases h : ∃ p, e = .rmdir p
  · obtain ⟨p, rfl⟩ := h
    simp only [Fs.exec]
    split
    · exact Fs.sealed_remove p
    · exact List.Subset.refl _
  · rw [Fs.sealed_exec fun p hp => h ⟨p, hp⟩]
    exact List.Subset.refl _

/-- A directory that could not be listed stays so until it is removed. -/
theorem Fs.sealed_exec_removal {fs : Fs} {e : Event} {q : Path}
    (he : ∃ p, e = .unlink p ∨ e = .rmdir p) (hq : q ∈ fs.sealed ∨ fs.get q = none) :
    q ∈ (fs.exec e).sealed ∨ (fs.exec e).get q = none := by
  have hremove : ∀ p, q ∈ (fs.remove p).sealed ∨ (fs.remove p).get q = none := by
    intro p
    by_cases hbare : fs.Bare p
    · rcases hq with hsealed | hnone
      · by_cases heq : q = p
        · exact Or.inr (by rw [Fs.get_remove hbare, if_pos heq])
        · exact Or.inl (Fs.mem_sealed_remove hsealed heq)
      · right
        rw [Fs.get_remove hbare, hnone, ite_self]
    · rw [Fs.remove_of_not_bare hbare]
      exact hq
  obtain ⟨p, rfl | rfl⟩ := he
  · simp only [Fs.exec]
    split
    · exact hremove p
    · exact hq
  · simp only [Fs.exec]
    split
    · exact hremove p
    · exact hq

/-- The machine a program runs on: the disk, what was done to it, and the
time of day in nanoseconds since 1970. -/
structure World where
  fs : Fs
  trace : List Event
  clock : Int

/-- Make a change and record it. -/
def World.perform (w : World) (e : Event) : World :=
  { w with fs := w.fs.exec e, trace := w.trace ++ [e] }

@[simp] theorem World.perform_fs (w : World) (e : Event) : (w.perform e).fs = w.fs.exec e := rfl

@[simp] theorem World.perform_trace (w : World) (e : Event) :
    (w.perform e).trace = w.trace ++ [e] := rfl

@[simp] theorem World.perform_clock (w : World) (e : Event) : (w.perform e).clock = w.clock := rfl

/-- A sequence of system calls. -/
abbrev Kernel := EStateM Errno World

/-! ## Calls that only look -/

/-- `fs::symlink_metadata`. -/
def Fs.symlinkMetadata (fs : Fs) (p : Path) : Except Errno Node :=
  match fs.resolve false p with
  | .ok q => match fs.get q with
    | some x => .ok x
    | none => .error .notFound
  | .error e => .error e

/-- `fs::metadata`: links are followed. -/
def Fs.metadata (fs : Fs) (p : Path) : Except Errno Node :=
  match fs.resolve true p with
  | .ok q => match fs.get q with
    | some x => .ok x
    | none => .error .notFound
  | .error e => .error e

/-- `Path::exists`. -/
def Fs.exists (fs : Fs) (p : Path) : Bool := (fs.metadata p).isOk

/-- `Path::is_dir`. -/
def Fs.isDir (fs : Fs) (p : Path) : Bool :=
  match fs.metadata p with
  | .ok .dir => true
  | _ => false

/-- `Path::is_file`. -/
def Fs.isFile (fs : Fs) (p : Path) : Bool :=
  match fs.metadata p with
  | .ok (.file _) => true
  | _ => false

/-- `fs::read`. -/
def Fs.read (fs : Fs) (p : Path) : Except Errno Bytes :=
  match fs.metadata p with
  | .ok (.file d) => .ok d.bytes
  | .ok _ => .error .isADirectory
  | .error e => .error e

/-- `fs::read_to_string`. -/
def Fs.readToString (fs : Fs) (p : Path) : Except Errno Bytes :=
  match fs.read p with
  | .ok s => if validUtf8 s then .ok s else .error .invalidData
  | .error e => .error e

/-- The names in a directory, in order: `fs::read_dir`.  Links above it are
followed; a sealed one is refused. -/
def Fs.readDir (fs : Fs) (p : Path) : Except Errno (List Name) :=
  match fs.resolve true p with
  | .error e => .error e
  | .ok q => match fs.get q with
    | none => .error .notFound
    | some .dir =>
        if q ∈ fs.sealed then .error .other
        else .ok (((fs.nodes.keys.filter fun k => k ≠ [] ∧ k.dropLast = q).filterMap
          List.getLast?).insertionSort (· ≤ ·))
    | some _ => .error .notADirectory

/-- No directory from the root of a walk down to the one that holds `r` is
sealed. -/
def Fs.Listed (fs : Fs) (root r : Path) : Prop :=
  ∀ q ∈ fs.sealed, root <+: q → q <+: root ++ r → q = root ++ r

instance (fs : Fs) (root r : Path) : Decidable (fs.Listed root r) := by
  unfold Fs.Listed; infer_instance

theorem Fs.Listed.of_subset {fs fs' : Fs} {root r : Path} (h : fs.Listed root r)
    (hsub : fs'.sealed ⊆ fs.sealed) : fs'.Listed root r := fun q hq => h q (hsub hq)

theorem Fs.listed_congr {fs fs' : Fs} (h : fs'.sealed = fs.sealed) (root r : Path) :
    fs'.Listed root r ↔ fs.Listed root r := by
  unfold Fs.Listed
  rw [h]

/-- A walk that gets anywhere lists its root. -/
theorem Fs.Listed.child {fs : Fs} {root r : Path} (h : fs.Listed root r) (hr : r ≠ [])
    {n : Name} : fs.Listed root [n] := by
  intro q hq hroot hpre
  rcases List.prefix_concat_iff.mp hpre with heq | hpre'
  · exact heq
  · have hq' : q = root := List.IsPrefix.eq_of_length_le hpre' hroot.length_le
    subst hq'
    have hself := h q hq hroot (List.prefix_append _ _)
    exact absurd (List.append_right_eq_self.mp hself.symm) hr

/-- Everything at or under a directory that a walk gets to, relative to it,
parents first and siblings in order of their names: `WalkDir` with
`sort_by_file_name`, links not followed.  A sealed directory is an entry of the
walk; what is in it is an error, which every caller skips. -/
def Fs.walk (fs : Fs) (root : Path) : List Path :=
  (((fs.nodes.keys.filter (root <+: ·)).map (·.drop root.length)).filter
    (fs.Listed root ·)).insertionSort (· ≤ ·)

/-- A walk lists the nodes in directories that can be listed. -/
theorem Fs.mem_walk {fs : Fs} {root r : Path} :
    r ∈ fs.walk root ↔ (∃ x, fs.get (root ++ r) = some x) ∧ fs.Listed root r := by
  have hkey : ∀ k, k ∈ fs.nodes.keys ↔ ∃ x, fs.get k = some x := by
    intro k
    rw [← AList.mem_keys, ← AList.lookup_isSome, Option.isSome_iff_exists]
    rfl
  unfold Fs.walk
  rw [List.mem_insertionSort, List.mem_filter, List.mem_map, decide_eq_true_eq]
  refine and_congr_left fun _ => ?_
  constructor
  · intro h
    obtain ⟨k, hk, hr⟩ := h
    obtain ⟨hmem, hpre⟩ := List.mem_filter.mp hk
    obtain ⟨t, ht⟩ : root <+: k := by simpa using hpre
    subst ht
    rw [List.drop_left] at hr
    exact hr ▸ (hkey _).mp hmem
  · intro h
    refine ⟨root ++ r, List.mem_filter.mpr ⟨(hkey _).mpr h, ?_⟩, List.drop_left⟩
    simp

/-! ## Calls that change something -/

/-- `fs::create_dir`. -/
def mkdir (p : Path) : Kernel Unit := fun w =>
  match w.fs.resolve false p with
  | .ok q =>
      if (w.fs.get q).isSome then .error .alreadyExists w
      else .ok () (w.perform (.mkdir q))
  | .error e => .error e w

/-- One attempt of `create_dir_all`: a failure is forgiven when the directory
is there all the same. -/
def mkdirOrFound (p : Path) : Kernel Unit := fun w =>
  match mkdir p w with
  | .ok () w => .ok () w
  | .error e w => if w.fs.isDir p then .ok () w else .error e w

/-- `create_dir_all` on a path given deepest component first: a missing parent
is made before the second attempt. -/
def createDirAllRev : Path → Kernel Unit
  | [] => pure ()
  | n :: up => fun w =>
      match mkdir (n :: up).reverse w with
      | .error .notFound w => (createDirAllRev up >>= fun _ => mkdirOrFound (n :: up).reverse) w
      | _ => mkdirOrFound (n :: up).reverse w

/-- `fs::create_dir_all`. -/
def createDirAll (p : Path) : Kernel Unit := createDirAllRev p.reverse

/-- `OpenOptions::new().write(true).create_new(true).mode(mode).open(p)`; the
handle is the physical path. -/
def createNew (p : Path) (mode : Nat) : Kernel Path := fun w =>
  match w.fs.resolve false p with
  | .ok q =>
      if (w.fs.get q).isSome then .error .alreadyExists w
      else .ok q (w.perform (.create q mode w.clock))
  | .error e => .error e w

/-- The mode of a file opened with no mode of its own, under the usual umask. -/
abbrev defaultMode : Nat := 0o644

/-- `OpenOptions::new().create(true).append(true).open(p)`. -/
def openAppend (p : Path) : Kernel Path := fun w =>
  match w.fs.resolve true p with
  | .ok q =>
      match w.fs.get q with
      | some (.file _) => .ok q w
      | some _ => .error .isADirectory w
      | none => .ok q (w.perform (.create q defaultMode w.clock))
  | .error e => .error e w

/-- `File::create(p)`: an existing file is emptied. -/
def openTruncate (p : Path) : Kernel Path := fun w =>
  match openAppend p w with
  | .ok q w => .ok q (w.perform (.truncate q w.clock))
  | .error e w => .error e w

/-- `write_all` at the end of an open file. -/
def writeAll (q : Path) (data : Bytes) : Kernel Unit := fun w =>
  .ok () (w.perform (.write q data w.clock))

/-- `fs::write`. -/
def writeFile (p : Path) (data : Bytes) : Kernel Unit := do
  let q ← openTruncate p
  writeAll q data

/-- `fs::rename` of a file. -/
def rename (p q : Path) : Kernel Unit := fun w =>
  match w.fs.resolve false p, w.fs.resolve false q with
  | .ok p', .ok q' =>
      if (w.fs.leaf p').isNone then .error .notFound w
      else if w.fs.get q' = some .dir then .error .isADirectory w
      else .ok () (w.perform (.rename p' q'))
  | .error e, _ => .error e w
  | _, .error e => .error e w

/-- `fs::set_permissions` on a file. -/
def setPermissions (p : Path) (mode : Nat) : Kernel Unit := fun w =>
  match w.fs.resolve true p with
  | .ok q =>
      match w.fs.get q with
      | some _ => .ok () (w.perform (.chmod q mode))
      | none => .error .notFound w
  | .error e => .error e w

/-- `fs::remove_file`: a link is removed, not its target. -/
def removeFile (p : Path) : Kernel Unit := fun w =>
  match w.fs.resolve false p with
  | .ok q =>
      match w.fs.get q with
      | some .dir => .error .isADirectory w
      | some _ => .ok () (w.perform (.unlink q))
      | none => .error .notFound w
  | .error e => .error e w

/-- `fs::remove_dir`. -/
def removeDir (p : Path) : Kernel Unit := fun w =>
  match w.fs.resolve false p with
  | .ok q =>
      match w.fs.get q with
      | some .dir =>
          if w.fs.Bare q then .ok () (w.perform (.rmdir q))
          else .error .directoryNotEmpty w
      | some _ => .error .notADirectory w
      | none => .error .notFound w
  | .error e => .error e w

/-! ## What a call that succeeded did, and that a failed one did nothing -/

section Outcomes

variable {p q : Path} {w w' : World}

/-- `mkdir` that succeeds made the directory where nothing was. -/
theorem mkdir_ok {u : Unit} (h : mkdir p w = .ok u w') :
    ∃ r, w.fs.resolve false p = .ok r ∧ w.fs.get r = none ∧ w' = w.perform (.mkdir r) := by
  unfold mkdir at h
  split at h
  case _ r hr =>
    split at h
    · cases h
    case _ hsome =>
      cases h
      exact ⟨r, hr, Option.not_isSome_iff_eq_none.mp hsome, rfl⟩
  · cases h

/-- `mkdir` that fails changes nothing. -/
theorem mkdir_error {e : Errno} (h : mkdir p w = .error e w') : w' = w := by
  unfold mkdir at h
  split at h
  · split at h <;> cases h
    rfl
  · cases h; rfl

/-- A file that is created anew was not there. -/
theorem createNew_ok {mode : Nat} {r : Path} (h : createNew p mode w = .ok r w') :
    w.fs.resolve false p = .ok r ∧ w.fs.get r = none ∧
      w' = w.perform (.create r mode w.clock) := by
  unfold createNew at h
  split at h
  case _ r' hr =>
    split at h
    · cases h
    case _ hsome =>
      cases h
      exact ⟨hr, Option.not_isSome_iff_eq_none.mp hsome, rfl⟩
  · cases h

/-- A file that cannot be created changes nothing. -/
theorem createNew_error {mode : Nat} {e : Errno} (h : createNew p mode w = .error e w') :
    w' = w := by
  unfold createNew at h
  split at h
  · split at h <;> cases h
    rfl
  · cases h; rfl

/-- A file opened to append was there, or is made. -/
theorem openAppend_ok {r : Path} (h : openAppend p w = .ok r w') :
    w.fs.resolve true p = .ok r ∧
      ((∃ d, w.fs.get r = some (.file d)) ∧ w' = w ∨
        w.fs.get r = none ∧ w' = w.perform (.create r defaultMode w.clock)) := by
  unfold openAppend at h
  split at h
  case _ r' hr =>
    split at h
    case _ d hd => cases h; exact ⟨hr, Or.inl ⟨⟨d, hd⟩, rfl⟩⟩
    · cases h
    case _ hnone => cases h; exact ⟨hr, Or.inr ⟨hnone, rfl⟩⟩
  · cases h

/-- A file that cannot be opened changes nothing. -/
theorem openAppend_error {e : Errno} (h : openAppend p w = .error e w') : w' = w := by
  unfold openAppend at h
  split at h
  · split at h <;> cases h
    rfl
  · cases h; rfl

/-- A file that cannot be written changes nothing. -/
theorem writeFile_error {data : Bytes} {e : Errno} (h : writeFile p data w = .error e w') :
    w' = w := by
  unfold writeFile at h
  rw [bind_apply] at h
  unfold openTruncate at h
  cases hopen : openAppend p w with
  | ok q w₁ =>
      rw [hopen] at h
      cases h
  | error e₁ w₁ =>
      rw [hopen] at h
      cases h
      exact openAppend_error hopen

/-- A rename that succeeds moves a leaf to a place that is no directory. -/
theorem rename_ok {u : Unit} (h : rename p q w = .ok u w') :
    ∃ p' q' x, w.fs.resolve false p = .ok p' ∧ w.fs.resolve false q = .ok q' ∧
      w.fs.leaf p' = some x ∧ w.fs.get q' ≠ some .dir ∧
      w' = w.perform (.rename p' q') := by
  unfold rename at h
  split at h
  case _ p' q' hp hq =>
    split at h
    · cases h
    case _ hleaf =>
      split at h
      · cases h
      case _ hdir =>
        cases h
        obtain ⟨x, hx⟩ : ∃ x, w.fs.leaf p' = some x :=
          Option.ne_none_iff_exists'.mp fun hnone => hleaf (by rw [hnone]; rfl)
        exact ⟨p', q', x, hp, hq, hx, hdir, rfl⟩
  · cases h
  · cases h

/-- A rename that fails changes nothing. -/
theorem rename_error {e : Errno} (h : rename p q w = .error e w') : w' = w := by
  unfold rename at h
  split at h
  · split at h
    · cases h; rfl
    · split at h <;> cases h
      rfl
  · cases h; rfl
  · cases h; rfl

/-- Permissions are set on what the path leads to. -/
theorem setPermissions_ok {mode : Nat} {u : Unit} (h : setPermissions p mode w = .ok u w') :
    ∃ r x, w.fs.resolve true p = .ok r ∧ w.fs.get r = some x ∧
      w' = w.perform (.chmod r mode) := by
  unfold setPermissions at h
  split at h
  case _ r hr =>
    split at h
    case _ x hx => cases h; exact ⟨r, x, hr, hx, rfl⟩
    · cases h
  · cases h

/-- A removal that succeeds takes a leaf away. -/
theorem removeFile_ok {u : Unit} (h : removeFile p w = .ok u w') :
    ∃ r x, w.fs.resolve false p = .ok r ∧ w.fs.leaf r = some x ∧
      w' = w.perform (.unlink r) := by
  unfold removeFile at h
  split at h
  case _ r hr =>
    split at h
    · cases h
    case _ x hdir hx =>
      cases h
      exact ⟨r, x, hr, w.fs.leaf_eq_some.mpr ⟨hx, hdir⟩, rfl⟩
    · cases h
  · cases h

/-- A file that cannot be removed leaves everything as it was. -/
theorem removeFile_error {e : Errno} (h : removeFile p w = .error e w') : w' = w := by
  unfold removeFile at h
  split at h
  · split at h <;> cases h <;> rfl
  · cases h; rfl

/-- A file or link is removed at its own physical path. -/
theorem removeFile_of_leaf {x : Node} (h : w.fs.leaf p = some x) :
    removeFile p w = .ok () (w.perform (.unlink p)) := by
  obtain ⟨hget, hx⟩ := w.fs.leaf_eq_some.mp h
  have hres : w.fs.resolve false p = .ok p := Fs.resolve_of_get hget (by simp)
  unfold removeFile
  cases x <;> simp_all

/-- A directory that is removed was empty. -/
theorem removeDir_ok {u : Unit} (h : removeDir p w = .ok u w') :
    ∃ r, w.fs.resolve false p = .ok r ∧ w.fs.get r = some .dir ∧ w.fs.Bare r ∧
      w' = w.perform (.rmdir r) := by
  unfold removeDir at h
  split at h
  case _ r hr =>
    split at h
    case _ hdir =>
      split at h
      case isTrue hbare => cases h; exact ⟨r, hr, hdir, hbare, rfl⟩
      · cases h
    · cases h
    · cases h
  · cases h

/-- A directory that cannot be removed changes nothing. -/
theorem removeDir_error {e : Errno} (h : removeDir p w = .error e w') : w' = w := by
  unfold removeDir at h
  split at h
  · split at h
    · split at h <;> cases h
      rfl
    · cases h; rfl
    · cases h; rfl
  · cases h; rfl

end Outcomes

/-! ## What a run of calls did -/

/-- The run from `w` to `w'` made some events, all of which satisfy `P`, and
nothing else. -/
def World.Extends (P : Event → Prop) (w w' : World) : Prop :=
  w'.clock = w.clock ∧ ∃ evs, w'.trace = w.trace ++ evs ∧ w'.fs = evs.foldl Fs.exec w.fs ∧
    ∀ e ∈ evs, P e

theorem World.Extends.refl {P : Event → Prop} (w : World) : World.Extends P w w :=
  ⟨rfl, [], by simp, rfl, by simp⟩

/-- One run after the other does what each of them may do. -/
theorem World.Extends.trans {P : Event → Prop} {w₁ w₂ w₃ : World}
    (h₁ : World.Extends P w₁ w₂) (h₂ : World.Extends P w₂ w₃) : World.Extends P w₁ w₃ := by
  obtain ⟨hc₁, evs₁, ht₁, hf₁, hP₁⟩ := h₁
  obtain ⟨hc₂, evs₂, ht₂, hf₂, hP₂⟩ := h₂
  refine ⟨hc₂.trans hc₁, evs₁ ++ evs₂, by rw [ht₂, ht₁, List.append_assoc],
    by rw [hf₂, hf₁, List.foldl_append], ?_⟩
  intro e he
  rcases List.mem_append.mp he with he | he
  · exact hP₁ e he
  · exact hP₂ e he

theorem World.Extends.mono {P Q : Event → Prop} {w w' : World} (h : World.Extends P w w')
    (hPQ : ∀ e, P e → Q e) : World.Extends Q w w' := by
  obtain ⟨hc, evs, ht, hf, hP⟩ := h
  exact ⟨hc, evs, ht, hf, fun e he => hPQ e (hP e he)⟩

theorem World.Extends.perform {P : Event → Prop} {w : World} {e : Event} (he : P e) :
    World.Extends P w (w.perform e) :=
  ⟨rfl, [e], rfl, rfl, by simpa using he⟩

/-- An event changes nothing but the nodes at its paths. -/
theorem Fs.get_exec_of_not_mem {fs : Fs} {e : Event} {q : Path} (h : q ∉ e.paths) :
    (fs.exec e).get q = fs.get q := by
  have hput : ∀ (fs : Fs) (p : Path) (x : Node), q ≠ p → (fs.put p x).get q = fs.get q := by
    intro fs p x hq
    by_cases hroom : fs.Room p
    · rw [Fs.get_put hroom, if_neg hq]
    · unfold Fs.put
      rw [dif_neg hroom]
  have hremove : ∀ (fs : Fs) (p : Path), q ≠ p → (fs.remove p).get q = fs.get q := by
    intro fs p hq
    by_cases hbare : fs.Bare p
    · rw [Fs.get_remove hbare, if_neg hq]
    · unfold Fs.remove
      rw [dif_neg hbare]
  have hmodify : ∀ (p : Path) (f : FileData → FileData), q ≠ p →
      (fs.modifyFile p f).get q = fs.get q := fun p f hq => Fs.get_modifyFile_of_ne hq f
  cases e with
  | mkdir p => exact hput _ _ _ (by simpa [Event.paths] using h)
  | create p mode t => exact hput _ _ _ (by simpa [Event.paths] using h)
  | write p data t => exact hmodify _ _ (by simpa [Event.paths] using h)
  | truncate p t => exact hmodify _ _ (by simpa [Event.paths] using h)
  | chmod p mode => exact hmodify _ _ (by simpa [Event.paths] using h)
  | rename p p' =>
      obtain ⟨hp, hp'⟩ : q ≠ p ∧ q ≠ p' := by simpa [Event.paths] using h
      simp only [Fs.exec]
      split
      · split
        · rfl
        · rw [hput _ _ _ hp', hremove _ _ hp]
      · rfl
  | unlink p =>
      simp only [Fs.exec]
      split
      · exact hremove _ _ (by simpa [Event.paths] using h)
      · rfl
  | rmdir p =>
      simp only [Fs.exec]
      split
      · exact hremove _ _ (by simpa [Event.paths] using h)
      · rfl

/-- What no event of a run touches is what it was. -/
theorem World.Extends.get_eq {P : Event → Prop} {w w' : World} {q : Path}
    (h : World.Extends P w w') (hP : ∀ e, P e → q ∉ e.paths) : w'.fs.get q = w.fs.get q := by
  obtain ⟨_, evs, htrace, hfs, hall⟩ := h
  rw [hfs]
  clear hfs htrace
  generalize w.fs = fs
  induction evs generalizing fs with
  | nil => rfl
  | cons e evs ih =>
      rw [List.foldl_cons, ih (fun e he => hall e (List.mem_cons_of_mem _ he))]
      exact Fs.get_exec_of_not_mem (hP e (hall e (by simp)))

/-- No run seals a directory. -/
theorem World.Extends.sealed_subset {P : Event → Prop} {w w' : World}
    (h : World.Extends P w w') : w'.fs.sealed ⊆ w.fs.sealed := by
  obtain ⟨_, evs, htrace, hfs, hall⟩ := h
  rw [hfs]
  clear hfs htrace hall
  generalize w.fs = fs
  induction evs generalizing fs with
  | nil => exact List.Subset.refl _
  | cons e evs ih =>
      rw [List.foldl_cons]
      exact List.Subset.trans (ih _) (fs.sealed_exec_subset e)

/-- Nor does one that removes no directory unseal any. -/
theorem World.Extends.sealed_eq {P : Event → Prop} {w w' : World} (h : World.Extends P w w')
    (hP : ∀ e, P e → ∀ p, e ≠ .rmdir p) : w'.fs.sealed = w.fs.sealed := by
  obtain ⟨_, evs, htrace, hfs, hall⟩ := h
  rw [hfs]
  clear hfs htrace
  generalize w.fs = fs
  induction evs generalizing fs with
  | nil => rfl
  | cons e evs ih =>
      rw [List.foldl_cons, ih (fun e he => hall e (List.mem_cons_of_mem _ he))]
      exact Fs.sealed_exec (hP e (hall e (by simp)))

/-- One that only removes leaves every directory as it was, or takes it away. -/
theorem World.Extends.listed_iff {P : Event → Prop} {w w' : World} (h : World.Extends P w w')
    (hP : ∀ e, P e → ∃ p, e = .unlink p ∨ e = .rmdir p) {root r : Path} {x : Node}
    (hx : w'.fs.get (root ++ r) = some x) : w'.fs.Listed root r ↔ w.fs.Listed root r := by
  refine ⟨?_, fun hlisted => hlisted.of_subset h.sealed_subset⟩
  intro hlisted q hq hroot hpre
  obtain ⟨_, evs, htrace, hfs, hall⟩ := h
  have hfate : ∀ fs : Fs, (q ∈ fs.sealed ∨ fs.get q = none) →
      q ∈ (evs.foldl Fs.exec fs).sealed ∨ (evs.foldl Fs.exec fs).get q = none := by
    clear hfs htrace
    induction evs with
    | nil => exact fun _ hfs => hfs
    | cons e evs ih =>
        intro fs hfs
        rw [List.foldl_cons]
        exact ih (fun e he => hall e (List.mem_cons_of_mem _ he)) _
          (Fs.sealed_exec_removal (hP e (hall e (by simp))) hfs)
  have hfinal : q ∈ w'.fs.sealed ∨ w'.fs.get q = none := hfs ▸ hfate w.fs (Or.inl hq)
  rcases hfinal with hsealed | hnone
  · exact hlisted q hsealed hroot hpre
  · by_contra hne
    -- what holds something is there
    have hdir := w'.fs.get_of_prefix hx hpre hne
    rw [hnone] at hdir
    cases hdir

/-- From `fs` to `fs'` only directories were made, where nothing was. -/
def Fs.NewDirs (fs fs' : Fs) : Prop :=
  ∀ q, fs'.get q = fs.get q ∨ (fs.get q = none ∧ fs'.get q = some .dir)

namespace Fs.NewDirs

variable {fs fs' fs'' : Fs}

theorem refl (fs : Fs) : Fs.NewDirs fs fs := fun _ => Or.inl rfl

/-- What there was stays. -/
theorem sub (h : Fs.NewDirs fs fs') {q : Path} {x : Node} (hq : fs.get q = some x) :
    fs'.get q = some x := by
  rcases h q with heq | ⟨hnone, _⟩
  · rw [heq, hq]
  · rw [hnone] at hq; cases hq

/-- New directories after new directories are new directories. -/
theorem trans (h : Fs.NewDirs fs fs') (h' : Fs.NewDirs fs' fs'') : Fs.NewDirs fs fs'' := by
  intro q
  rcases h q with heq | ⟨hnone, hdir⟩
  · rw [← heq]
    exact h' q
  · exact Or.inr ⟨hnone, h'.sub hdir⟩

/-- The leaves are the same. -/
theorem leaf_eq (h : Fs.NewDirs fs fs') (q : Path) : fs'.leaf q = fs.leaf q := by
  unfold Fs.leaf
  rcases h q with heq | ⟨hnone, hdir⟩
  · rw [heq]
  · rw [hnone, hdir]

/-- The links are the same. -/
theorem link (h : Fs.NewDirs fs fs') {q : Path} {t : Bytes}
    (hq : fs'.get q = some (.symlink t)) : fs.get q = some (.symlink t) := by
  rcases h q with heq | ⟨_, hdir⟩
  · rw [← heq, hq]
  · rw [hdir] at hq; cases hq

/-- A tree with new directories has grown. -/
theorem grows (h : Fs.NewDirs fs fs') : Fs.Grows fs fs' := by
  refine ⟨fun q hq => h.sub hq, ?_, ?_⟩
  · intro q x hx
    left
    rw [h.leaf_eq, hx]
  · intro q t ht
    rw [← h.leaf_eq, ht]

end Fs.NewDirs

/-- From `fs` to `fs'` only missing ancestors of `p` were made, as directories. -/
def Fs.AddsDirs (p : Path) (fs fs' : Fs) : Prop :=
  ∀ q, fs'.get q = fs.get q ∨ (q <+: p ∧ fs.get q = none ∧ fs'.get q = some .dir)

/-- Directories added along a path are new directories. -/
theorem Fs.AddsDirs.newDirs {p : Path} {fs fs' : Fs} (h : Fs.AddsDirs p fs fs') :
    Fs.NewDirs fs fs' := by
  intro q
  rcases h q with heq | ⟨_, hnone, hdir⟩
  · exact Or.inl heq
  · exact Or.inr ⟨hnone, hdir⟩

theorem Fs.AddsDirs.dir {p q : Path} {fs fs' : Fs} (h : Fs.AddsDirs p fs fs')
    (hq : fs.get q = some .dir) : fs'.get q = some .dir := h.newDirs.sub hq

theorem Fs.AddsDirs.link {p q : Path} {fs fs' : Fs} (h : Fs.AddsDirs p fs fs') {t : Bytes}
    (hq : fs'.get q = some (.symlink t)) : fs.get q = some (.symlink t) := h.newDirs.link hq

/-- Directories may be added along a path in two steps. -/
theorem Fs.AddsDirs.trans {p : Path} {fs₁ fs₂ fs₃ : Fs} (h₁ : Fs.AddsDirs p fs₁ fs₂)
    (h₂ : Fs.AddsDirs p fs₂ fs₃) : Fs.AddsDirs p fs₁ fs₃ := by
  intro q
  rcases h₁ q with heq₁ | ⟨hpre, hnone, hdir⟩
  · rcases h₂ q with heq₂ | ⟨hpre, hnone, hdir⟩
    · exact Or.inl (heq₂.trans heq₁)
    · exact Or.inr ⟨hpre, heq₁ ▸ hnone, hdir⟩
  · exact Or.inr ⟨hpre, hnone, h₂.dir hdir⟩

/-- Making the directory `q` at a free place above `p`. -/
theorem Fs.addsDirs_mkdir {p q : Path} {fs : Fs} (hroom : fs.Room q) (hq : q <+: p)
    (hnone : fs.get q = none) : Fs.AddsDirs p fs (fs.exec (.mkdir q)) := by
  intro r
  have hget : (fs.exec (.mkdir q)).get r = _ := Fs.get_put hroom .dir r
  by_cases hr : r = q
  · subst hr
    exact Or.inr ⟨hq, hnone, by rw [hget, if_pos rfl]⟩
  · exact Or.inl (by rw [hget, if_neg hr])

/-- What `createDirAll` may have done, and has done when it succeeds. -/
structure MadeDirs (p : Path) (w w' : World) : Prop where
  adds : Fs.AddsDirs p w.fs w'.fs
  events : World.Extends (fun e => ∃ q, e = .mkdir q ∧ q <+: p ∧ w.fs.get q = none) w w'

theorem MadeDirs.refl (p : Path) (w : World) : MadeDirs p w w :=
  ⟨fun _ => Or.inl rfl, World.Extends.refl w⟩

/-- They may be made along a path in two steps. -/
theorem MadeDirs.trans {p p' : Path} {w₁ w₂ w₃ : World} (h₁ : MadeDirs p' w₁ w₂)
    (hpre : p' <+: p) (h₂ : MadeDirs p w₂ w₃) : MadeDirs p w₁ w₃ := by
  have hadds : Fs.AddsDirs p w₁.fs w₂.fs := by
    intro q
    rcases h₁.adds q with heq | ⟨hq, hnone, hdir⟩
    · exact Or.inl heq
    · exact Or.inr ⟨hq.trans hpre, hnone, hdir⟩
  refine ⟨hadds.trans h₂.adds, ?_⟩
  refine World.Extends.trans (?_ : World.Extends _ w₁ w₂) ?_
  · apply h₁.events.mono
    intro e he
    obtain ⟨q, rfl, hq, hnone⟩ := he
    exact ⟨q, rfl, hq.trans hpre, hnone⟩
  · apply h₂.events.mono
    intro e he
    obtain ⟨q, rfl, hq, hnone⟩ := he
    refine ⟨q, rfl, hq, ?_⟩
    rcases hadds q with heq | ⟨_, hnone', _⟩
    · rw [← heq, hnone]
    · exact hnone'

/-- With no link on the way, the first attempt at `p` only adds `p`. -/
theorem madeDirs_of_mkdir {p : Path} {w w' : World} {u : Unit}
    (hnames : ∀ n ∈ p, ValidName n)
    (hlinks : ∀ pre, pre <+: p → ∀ t, w.fs.get pre ≠ some (.symlink t))
    (h : mkdir p w = .ok u w') : MadeDirs p w w' ∧ w'.fs.get p = some .dir := by
  obtain ⟨r, hres, hnone, rfl⟩ := mkdir_ok h
  have hr : r = p := Fs.resolve_eq_self hnames (fun pre hpre _ => hlinks pre hpre)
    (by simp) hres
  subst hr
  have hroom := Fs.room_of_reached (Fs.resolve_reached hres) hnone
  refine ⟨⟨Fs.addsDirs_mkdir hroom (List.prefix_refl _) hnone, ?_⟩, ?_⟩
  · exact World.Extends.perform ⟨r, rfl, List.prefix_refl _, hnone⟩
  · have hget : (w.fs.exec (.mkdir r)).get r = _ := Fs.get_put hroom .dir r
    rw [World.perform_fs, hget, if_pos rfl]

/-- A directory that `is_dir` sees at the end of a path without links is there. -/
theorem Fs.get_of_isDir {p : Path} {fs : Fs} (hnames : ∀ n ∈ p, ValidName n)
    (hlinks : ∀ pre, pre <+: p → ∀ t, fs.get pre ≠ some (.symlink t))
    (h : fs.isDir p = true) : fs.get p = some .dir := by
  unfold Fs.isDir Fs.metadata at h
  cases hres : fs.resolve true p with
  | error e => simp [hres] at h
  | ok r =>
      have hr : r = p := Fs.resolve_eq_self hnames (fun pre hpre _ => hlinks pre hpre)
        (fun _ => hlinks p (List.prefix_refl _)) hres
      subst hr
      rw [hres] at h
      cases hx : fs.get r with
      | none => simp [hx] at h
      | some x => cases x <;> simp [hx] at h ⊢

/-- One attempt on a path without links makes the directory, or leaves it to be
made. -/
theorem mkdirOrFound_after {p : Path} {w : World} (hnames : ∀ n ∈ p, ValidName n)
    (hlinks : ∀ pre, pre <+: p → ∀ t, w.fs.get pre ≠ some (.symlink t)) :
    After (mkdirOrFound p w) (fun _ w' => MadeDirs p w w' ∧ w'.fs.get p = some .dir)
      (fun _ w' => MadeDirs p w w') := by
  unfold mkdirOrFound
  cases h : mkdir p w with
  | ok u w' => exact madeDirs_of_mkdir hnames hlinks h
  | error e w' =>
      have hw := mkdir_error h
      subst hw
      by_cases hdir : w'.fs.isDir p = true
      · simp only [hdir, if_true]
        exact ⟨MadeDirs.refl _ _, Fs.get_of_isDir hnames hlinks hdir⟩
      · simp only [hdir]
        exact MadeDirs.refl _ _

/-- **Creating a directory and its parents.**  With no link on the way only
missing ancestors are made, whatever the outcome; success leaves a directory. -/
theorem createDirAllRev_after {up : Path} {w : World}
    (hnames : ∀ n ∈ up, ValidName n)
    (hlinks : ∀ pre, pre <+: up.reverse → ∀ t, w.fs.get pre ≠ some (.symlink t)) :
    After (createDirAllRev up w)
      (fun _ w' => MadeDirs up.reverse w w' ∧ w'.fs.get up.reverse = some .dir)
      (fun _ w' => MadeDirs up.reverse w w') := by
  induction up generalizing w with
  | nil => exact ⟨MadeDirs.refl _ _, w.fs.get_root⟩
  | cons n up ih =>
      have hnames' : ∀ m ∈ (n :: up).reverse, ValidName m := by
        intro m hm
        exact hnames m (List.mem_reverse.mp hm)
      have hpre : up.reverse <+: (n :: up).reverse := by simp
      have honce := mkdirOrFound_after hnames' hlinks
      unfold createDirAllRev
      cases hfirst : mkdir (n :: up).reverse w with
      | ok u w₁ => simpa only [hfirst] using honce
      | error e w₁ =>
          have hw₁ := mkdir_error hfirst
          subst hw₁
          cases e with
          | notFound =>
              simp only
              apply After.bind (P := fun _ w' => MadeDirs up.reverse w₁ w')
              · apply (ih (w := w₁) (fun m hm => hnames m (List.mem_cons_of_mem _ hm))
                  (fun pre hp => hlinks pre (hp.trans hpre))).mono
                · intro _ w' h
                  exact h.1
                · intro _ w' h
                  exact MadeDirs.trans h hpre (MadeDirs.refl _ _)
              · intro _ w₂ hmade
                apply (mkdirOrFound_after hnames' (w := w₂)
                  (fun pre hp t ht => hlinks pre hp t (hmade.adds.link ht))).mono
                · intro _ w' h
                  exact ⟨hmade.trans hpre h.1, h.2⟩
                · intro _ w' h
                  exact hmade.trans hpre h
          | _ => simpa only [hfirst] using honce

/-- On a path without links `create_dir_all` makes directories along it, and no
others. -/
theorem createDirAll_after {p : Path} {w : World} (hnames : ∀ n ∈ p, ValidName n)
    (hlinks : ∀ pre, pre <+: p → ∀ t, w.fs.get pre ≠ some (.symlink t)) :
    After (createDirAll p w) (fun _ w' => MadeDirs p w w' ∧ w'.fs.get p = some .dir)
      (fun _ w' => MadeDirs p w w') := by
  have h := createDirAllRev_after (w := w)
    (fun n (hn : n ∈ p.reverse) => hnames n (List.mem_reverse.mp hn)) (by simpa using hlinks)
  simpa [createDirAll] using h

/-- What making directories may have done when links may stand on the way. -/
structure MadeSome (w w' : World) : Prop where
  newDirs : Fs.NewDirs w.fs w'.fs
  events : World.Extends (fun e => ∃ q, e = .mkdir q) w w'

theorem MadeSome.refl (w : World) : MadeSome w w := ⟨Fs.NewDirs.refl _, World.Extends.refl w⟩

theorem MadeSome.trans {w₁ w₂ w₃ : World} (h₁ : MadeSome w₁ w₂) (h₂ : MadeSome w₂ w₃) :
    MadeSome w₁ w₃ :=
  ⟨h₁.newDirs.trans h₂.newDirs, h₁.events.trans h₂.events⟩

/-- Making directories seals nothing. -/
theorem MadeSome.sealed_eq {w w' : World} (h : MadeSome w w') : w'.fs.sealed = w.fs.sealed := by
  apply h.events.sealed_eq
  intro e he p heq
  obtain ⟨q, rfl⟩ := he
  cases heq

/-- The path leads to the directory that was made. -/
theorem madeSome_of_mkdir {p : Path} {w w' : World} {u : Unit} (h : mkdir p w = .ok u w') :
    MadeSome w w' ∧ ∃ q, w'.fs.resolve false (p ++ [dot]) = .ok q := by
  obtain ⟨r, hres, hnone, rfl⟩ := mkdir_ok h
  have hget : ∀ q, (w.fs.exec (.mkdir r)).get q = _ := fun q =>
    Fs.get_put (Fs.room_of_reached (Fs.resolve_reached hres) hnone) .dir q
  have hnew : Fs.NewDirs w.fs (w.fs.exec (.mkdir r)) := by
    intro q
    by_cases hq : q = r
    · subst hq
      exact Or.inr ⟨hnone, (hget q).trans (if_pos rfl)⟩
    · exact Or.inl ((hget q).trans (if_neg hq))
  refine ⟨⟨hnew, World.Extends.perform ⟨r, rfl⟩⟩, r, ?_⟩
  exact Fs.resolve_snoc_dot (fun _ _ => hnew.sub) ((hget r).trans (if_pos rfl)) hres

/-- One attempt on any path makes directories, and on success the path leads to
one. -/
theorem mkdirOrFound_made {p : Path} {w : World} :
    After (mkdirOrFound p w)
      (fun _ w' => MadeSome w w' ∧ ∃ q, w'.fs.resolve false (p ++ [dot]) = .ok q)
      (fun _ w' => MadeSome w w') := by
  unfold mkdirOrFound
  cases h : mkdir p w with
  | ok u w' => exact madeSome_of_mkdir h
  | error e w' =>
      have hw := mkdir_error h
      subst hw
      by_cases hdir : w'.fs.isDir p = true
      · simp only [hdir, if_true]
        refine ⟨MadeSome.refl _, ?_⟩
        unfold Fs.isDir Fs.metadata at hdir
        cases hres : w'.fs.resolve true p with
        | error e => simp [hres] at hdir
        | ok q =>
            have hq : w'.fs.get q = some .dir := by
              rw [hres] at hdir
              cases hx : w'.fs.get q with
              | none => simp [hx] at hdir
              | some x => cases x <;> simp [hx] at hdir ⊢
            exact ⟨q, Fs.resolve_snoc_dot (fun _ _ h => h) hq hres⟩
      · simp only [hdir]
        exact MadeSome.refl _

/-- **Creating a directory and its parents, wherever links lead.**  Only
directories are made where nothing was; success leaves a path to a directory. -/
theorem createDirAllRev_made {up : Path} {w : World} :
    After (createDirAllRev up w)
      (fun _ w' => MadeSome w w' ∧ ∃ q, w'.fs.resolve false (up.reverse ++ [dot]) = .ok q)
      (fun _ w' => MadeSome w w') := by
  induction up generalizing w with
  | nil => exact ⟨MadeSome.refl _, [], rfl⟩
  | cons n up ih =>
      have honce := mkdirOrFound_made (p := (n :: up).reverse) (w := w)
      unfold createDirAllRev
      cases hfirst : mkdir (n :: up).reverse w with
      | ok u w₁ => simpa only [hfirst] using honce
      | error e w₁ =>
          have hw₁ := mkdir_error hfirst
          subst hw₁
          cases e with
          | notFound =>
              simp only
              apply After.bind (P := fun _ w' => MadeSome w₁ w')
              · exact ih.mono (fun _ _ h => h.1) fun _ _ h => h
              · intro _ w₂ hmade
                exact mkdirOrFound_made.mono (fun _ _ h => ⟨hmade.trans h.1, h.2⟩)
                  fun _ _ h => hmade.trans h
          | _ => simpa only [hfirst] using honce

/-- On any path `create_dir_all` makes directories, and on success the path
leads to one. -/
theorem createDirAll_made {p : Path} {w : World} :
    After (createDirAll p w)
      (fun _ w' => MadeSome w w' ∧ ∃ q, w'.fs.resolve false (p ++ [dot]) = .ok q)
      (fun _ w' => MadeSome w w') := by
  have h : After (createDirAllRev p.reverse w) _ _ := createDirAllRev_made
  simpa [createDirAll] using h

/-- Once the parent is there, an attempt at a place that holds no file or link
succeeds. -/
theorem mkdirOrFound_ok {p : Path} {w : World} (hnames : ∀ n ∈ p, ValidName n) (hp : p ≠ [])
    (hparent : w.fs.get p.dropLast = some .dir)
    (hplace : w.fs.get p = some .dir ∨ w.fs.get p = none) :
    ∃ w', mkdirOrFound p w = .ok () w' := by
  have hres : w.fs.resolve false p = .ok p := Fs.resolve_of_parent hnames hp hparent (by simp)
  unfold mkdirOrFound mkdir
  rw [hres]
  rcases hplace with hdir | hnone
  · have hisdir : w.fs.isDir p = true := by
      unfold Fs.isDir Fs.metadata
      rw [Fs.resolve_of_get hdir (by simp)]
      simp only [hdir]
    refine ⟨w, ?_⟩
    simp [hdir, hisdir]
  · refine ⟨w.perform (.mkdir p), ?_⟩
    simp [hnone]

/-- Where every ancestor is a directory or missing, the directory is made. -/
theorem createDirAllRev_ok {up : Path} {w : World} (hnames : ∀ n ∈ up, ValidName n)
    (hpre : ∀ pre, pre <+: up.reverse → w.fs.get pre = some .dir ∨ w.fs.get pre = none) :
    ∃ w', createDirAllRev up w = .ok () w' := by
  induction up generalizing w with
  | nil => exact ⟨w, rfl⟩
  | cons n up ih =>
      have hnames' : ∀ m ∈ (n :: up).reverse, ValidName m := by
        intro m hm
        exact hnames m (List.mem_reverse.mp hm)
      have hup : up.reverse <+: (n :: up).reverse := by simp
      have hdrop : (n :: up).reverse.dropLast = up.reverse := by simp
      have hlast := hpre _ (List.prefix_refl _)
      unfold createDirAllRev
      rcases hpre up.reverse hup with hparent | hmissing
      · obtain ⟨w', hok⟩ := mkdirOrFound_ok (w := w) hnames' (by simp)
          (by rw [hdrop]; exact hparent) hlast
        refine ⟨w', ?_⟩
        have hres : w.fs.resolve false (n :: up).reverse = .ok (n :: up).reverse :=
          Fs.resolve_of_parent hnames' (by simp) (by rw [hdrop]; exact hparent) (by simp)
        have hfirst : ∀ w₁, mkdir (n :: up).reverse w ≠ .error .notFound w₁ := by
          intro w₁ h
          unfold mkdir at h
          rw [hres] at h
          rcases hlast with hdir | hnone <;> simp_all
        split
        case _ w₁ h => exact absurd h (hfirst w₁)
        · exact hok
      · have hres : w.fs.resolve false (n :: up).reverse = .error .notFound :=
          Fs.resolve_notFound hnames' (fun pre hp _ => hpre pre hp)
            ⟨up.reverse, hup, by simp, hmissing⟩
        have hfirst : mkdir (n :: up).reverse w = .error .notFound w := by
          simp only [mkdir, hres]
        obtain ⟨w₁, hrec⟩ := ih (fun m hm => hnames m (List.mem_cons_of_mem _ hm))
          (fun pre hp => hpre pre (hp.trans hup))
        have hafter := createDirAllRev_after (w := w)
          (fun m (hm : m ∈ up) => hnames m (List.mem_cons_of_mem _ hm))
          (fun pre hp t ht => by
            rcases hpre pre (hp.trans hup) with h | h <;> rw [h] at ht <;> cases ht)
        rw [hrec] at hafter
        obtain ⟨hmade, hparent⟩ := hafter
        have hplace : w₁.fs.get (n :: up).reverse = some .dir ∨
            w₁.fs.get (n :: up).reverse = none := by
          rcases hmade.adds (n :: up).reverse with heq | ⟨_, _, hdir⟩
          · rw [heq]; exact hlast
          · exact Or.inl hdir
        obtain ⟨w', hok⟩ := mkdirOrFound_ok (w := w₁) hnames' (by simp)
          (by rw [hdrop]; exact hparent) hplace
        refine ⟨w', ?_⟩
        simp only [hfirst]
        exact bind_eq_ok.mpr ⟨(), w₁, hrec, hok⟩

theorem createDirAll_ok {p : Path} {w : World} (hnames : ∀ n ∈ p, ValidName n)
    (hpre : ∀ pre, pre <+: p → w.fs.get pre = some .dir ∨ w.fs.get pre = none) :
    ∃ w', createDirAll p w = .ok () w' :=
  createDirAllRev_ok (fun n hn => hnames n (List.mem_reverse.mp hn)) (by simpa using hpre)

/-- A directory that is there is left alone. -/
theorem createDirAll_of_dir {p : Path} {w : World} (h : w.fs.get p = some .dir) :
    createDirAll p w = .ok () w := by
  have hres : ∀ follow, w.fs.resolve follow p = .ok p := fun follow =>
    Fs.resolve_of_get h (by simp)
  unfold createDirAll
  cases hp : p.reverse with
  | nil => rfl
  | cons n up =>
      have hback : (n :: up).reverse = p := by rw [← hp, List.reverse_reverse]
      have hmk : mkdir p w = .error .alreadyExists w := by
        simp [mkdir, hres, h]
      have hdir : w.fs.isDir p = true := by
        simp [Fs.isDir, Fs.metadata, hres, h]
      unfold createDirAllRev
      rw [hback]
      simp [hmk, mkdirOrFound, hdir]

/-! ## Reading at a physical path -/

theorem Fs.metadata_of_get {fs : Fs} {p : Path} {x : Node} (h : fs.get p = some x)
    (hx : ∀ t, x ≠ .symlink t) : fs.metadata p = .ok x := by
  unfold Fs.metadata
  simp only [Fs.resolve_of_get h fun _ => hx, h]

theorem Fs.read_of_get {fs : Fs} {p : Path} {d : FileData} (h : fs.get p = some (.file d)) :
    fs.read p = .ok d.bytes := by
  unfold Fs.read
  rw [Fs.metadata_of_get h (by simp)]

/-- What is read under a path that is no link depends on the node there. -/
theorem Fs.read_congr {fs fs' : Fs} {p : Path} (hnames : ∀ n ∈ p, ValidName n) (hne : p ≠ [])
    (hdir : fs.get p.dropLast = some .dir) (hdir' : fs'.get p.dropLast = some .dir)
    (hlink : ∀ t, fs.get p ≠ some (.symlink t)) (hsame : fs'.get p = fs.get p) :
    fs'.read p = fs.read p := by
  have hres : fs.resolve true p = .ok p :=
    Fs.resolve_of_parent hnames hne hdir fun _ => hlink
  have hres' : fs'.resolve true p = .ok p :=
    Fs.resolve_of_parent hnames hne hdir' fun _ => hsame ▸ hlink
  unfold Fs.read Fs.metadata
  simp only [hres, hres', hsame]

/-- What stands at a place is what `symlink_metadata` finds. -/
theorem Fs.symlinkMetadata_of_get {fs : Fs} {p : Path} {x : Node} (h : fs.get p = some x) :
    fs.symlinkMetadata p = .ok x := by
  unfold Fs.symlinkMetadata
  have hres : fs.resolve false p = .ok p := Fs.resolve_of_get h (by simp)
  simp only [hres, h]

/-! ## Appending to a file at a physical path -/

/-- The content of the file at `p`, a missing file counting as empty. -/
def Fs.HasText (fs : Fs) (p : Path) (text : Bytes) : Prop :=
  (fs.get p = none ∧ text = []) ∨ ∃ d, fs.get p = some (.file d) ∧ d.bytes = text

/-- Opening a file for appending under a directory makes it if it is missing. -/
theorem openAppend_of_dir {p : Path} {text : Bytes} {w : World} (hnames : ∀ n ∈ p, ValidName n)
    (hp : p ≠ []) (hdir : w.fs.get p.dropLast = some .dir) (htext : w.fs.HasText p text) :
    ∃ w' d, openAppend p w = .ok p w' ∧ w'.fs.get p = some (.file d) ∧ d.bytes = text ∧
      (∀ q, q ≠ p → w'.fs.get q = w.fs.get q) ∧ w'.clock = w.clock := by
  have hlink : ∀ t, w.fs.get p ≠ some (.symlink t) := by
    intro t ht
    rcases htext with ⟨hnone, _⟩ | ⟨d, hd, _⟩
    · rw [hnone] at ht; cases ht
    · rw [hd] at ht; cases ht
  have hres : w.fs.resolve true p = .ok p :=
    Fs.resolve_of_parent hnames hp hdir fun _ => hlink
  unfold openAppend
  rw [hres]
  rcases htext with ⟨hnone, hempty⟩ | ⟨d, hd, hbytes⟩
  · have hroom : w.fs.Room p := Fs.room_of_reached (Fs.resolve_reached hres) hnone
    have hget : ∀ q, (w.fs.exec (.create p defaultMode w.clock)).get q = _ := fun q =>
      Fs.get_put hroom _ q
    simp only [hnone]
    refine ⟨_, _, rfl, (hget p).trans (if_pos rfl), hempty.symm, ?_, rfl⟩
    intro q hq
    exact (hget q).trans (if_neg hq)
  · simp only [hd]
    exact ⟨_, d, rfl, hd, hbytes, fun _ _ => rfl, rfl⟩

/-- Writing to an open file appends. -/
theorem writeAll_of_file {p : Path} {d : FileData} {w : World}
    (h : w.fs.get p = some (.file d)) (data : Bytes) :
    ∃ w' d', writeAll p data w = .ok () w' ∧ w'.fs.get p = some (.file d') ∧
      d'.bytes = d.bytes ++ data ∧ (∀ q, q ≠ p → w'.fs.get q = w.fs.get q) ∧
      w'.clock = w.clock := by
  have hget : ∀ q, (w.fs.exec (.write p data w.clock)).get q = _ := fun q =>
    Fs.get_modifyFile h _ q
  refine ⟨_, _, rfl, (hget p).trans (if_pos rfl), rfl, ?_, rfl⟩
  intro q hq
  exact (hget q).trans (if_neg hq)

end FileTree
