import Respawn.Revert
import Respawn.Writes

/-!
# What a revert does to the disk

`writeEntry` and the three passes of `apply`, each with what it does to the
tree and the events it makes, whatever its outcome.  A destination whose way is
clear is where its components say, so an entry changes its destination, its
temporary file and the directories above the destination and nothing else.

The temporary directory need not be a plain directory: `T` is where its path
leads, and it leads nowhere else for the rest of the run (`Ready`).
-/

namespace Respawn

open ByteStr FileTree StateLogic

variable (X : Crates) (st : Store)

namespace Revert

/-! ## The way to a destination -/

/-- What stands between `root` and `root ++ comps` is a directory or missing. -/
def ClearWay (fs : Fs) (root : Path) (comps : List Name) : Prop :=
  ∀ pre, pre <+: comps → pre ≠ comps →
    fs.get (root ++ pre) = some .dir ∨ fs.get (root ++ pre) = none

/-- On a clear way the link-aware look sees what stands at the path itself. -/
theorem symlinkMetadata_of_clear {fs : Fs} {p : Path} (hnames : ∀ n ∈ p, ValidName n)
    (hp : p ≠ [])
    (hclear : ∀ pre, pre <+: p → pre ≠ p → fs.get pre = some .dir ∨ fs.get pre = none) :
    fs.symlinkMetadata p = match fs.get p with
      | some x => .ok x
      | none => .error .notFound := by
  have hdrop : p.dropLast ≠ p := by
    intro h
    have hlen := congrArg List.length h
    have hpos := List.length_pos_iff.mpr hp
    rw [List.length_dropLast] at hlen
    omega
  unfold Fs.symlinkMetadata
  rcases hclear _ (List.dropLast_prefix p) hdrop with hdir | hnone
  · have hself : fs.resolve false p = .ok p := Fs.resolve_of_parent hnames hp hdir (by simp)
    cases hget : fs.get p <;> simp only [hself, hget]
  · have hmissing : fs.get p = none := by
      rw [← List.dropLast_append_getLast hp]
      exact fs.get_append_eq_none (by simp [hnone]) (by simp)
    rw [Fs.resolve_notFound hnames hclear ⟨_, List.dropLast_prefix p, hdrop, hnone⟩, hmissing]

/-- The ancestor check passes exactly when the way is clear. -/
theorem checkAncestors_eq_ok {fs : Fs} {rel : RelPath} {cur : Path} {comps : List Name}
    (hnames : ∀ n ∈ cur ++ comps, ValidName n)
    (hcur : ∀ pre, pre <+: cur → fs.get pre = some .dir ∨ fs.get pre = none) :
    checkAncestors fs rel cur comps = .ok () ↔ ClearWay fs cur comps := by
  induction comps generalizing cur with
  | nil =>
      refine iff_of_true rfl ?_
      intro pre hpre hne
      exact absurd (List.prefix_nil.mp hpre) hne
  | cons c rest ih =>
      cases rest with
      | nil =>
          refine iff_of_true rfl ?_
          intro pre hpre hne
          have hnil : pre = [] := by
            cases pre with
            | nil => rfl
            | cons a tail =>
                obtain ⟨rfl, htail⟩ := List.cons_prefix_cons.mp hpre
                exact absurd (by rw [List.prefix_nil.mp htail]) hne
          simpa [hnil] using hcur cur (List.prefix_refl _)
      | cons c' rest =>
          have hnames' : ∀ n ∈ cur ++ [c], ValidName n := by
            intro n hn
            apply hnames n
            simp only [List.mem_append, List.mem_cons] at hn ⊢
            tauto
          have hproper : ∀ pre, pre <+: cur ++ [c] → pre ≠ cur ++ [c] → pre <+: cur := by
            intro pre hpre hne
            rcases List.prefix_concat_iff.mp hpre with heq | hin
            · exact absurd heq hne
            · exact hin
          have hlook : fs.symlinkMetadata _ = _ := symlinkMetadata_of_clear hnames' (by simp)
            fun pre hpre hne => hcur pre (hproper pre hpre hne)
          -- the first ancestor, and from there the rest of the way
          have hsplit : ClearWay fs cur (c :: c' :: rest) ↔
              (fs.get (cur ++ [c]) = some .dir ∨ fs.get (cur ++ [c]) = none) ∧
                ClearWay fs (cur ++ [c]) (c' :: rest) := by
            constructor
            · intro h
              refine ⟨h [c] ⟨c' :: rest, rfl⟩ (by simp), ?_⟩
              intro pre hpre hne
              have := h (c :: pre) (List.cons_prefix_cons.mpr ⟨rfl, hpre⟩) (by simpa using hne)
              simpa [List.append_assoc] using this
            · intro h pre hpre hne
              cases pre with
              | nil => simpa using hcur cur (List.prefix_refl _)
              | cons a tail =>
                  obtain ⟨rfl, htail⟩ := List.cons_prefix_cons.mp hpre
                  have := h.2 tail htail (by simpa using hne)
                  simpa [List.append_assoc] using this
          have hih : (fs.get (cur ++ [c]) = some .dir ∨ fs.get (cur ++ [c]) = none) →
              (checkAncestors fs rel (cur ++ [c]) (c' :: rest) = .ok () ↔
                ClearWay fs (cur ++ [c]) (c' :: rest)) := by
            intro hfirst
            apply ih (by simpa [List.append_assoc] using hnames)
            intro pre hpre
            by_cases heq : pre = cur ++ [c]
            · rw [heq]; exact hfirst
            · exact hcur pre (hproper pre hpre heq)
          rw [hsplit]
          unfold checkAncestors
          rw [hlook]
          cases hx : fs.get (cur ++ [c]) with
          | none => simpa [hx] using hih (Or.inr hx)
          | some x => cases x with
            | dir => simpa [hx] using hih (Or.inl hx)
            | file d => simp
            | symlink t => simp

variable {st}

/-- The names on the way to a destination are proper. -/
theorem valid_under {fs : Fs} {root : Path} (hroot : fs.get root = some .dir) (rel : RelPath) :
    ∀ n ∈ root ++ rel.comps, ValidName n := by
  intro n hn
  rcases List.mem_append.mp hn with hn | hn
  · exact fs.valid_of_get hroot hn
  · exact rel.valid n hn

/-- **When a manifest path has a destination.** -/
theorem resolveDest_eq_ok {fs : Fs} {root : Path} {path : Bytes} {rel : RelPath}
    (hroot : fs.get root = some .dir) : resolveDest root path fs = .ok rel ↔
      sanitizeRel path = .ok rel ∧ ClearWay fs root rel.comps := by
  have hcheck : ∀ rel : RelPath,
      checkAncestors fs rel root rel.comps = .ok () ↔ ClearWay fs root rel.comps := fun rel =>
    checkAncestors_eq_ok (valid_under hroot rel) fun pre hpre =>
      Or.inl (Fs.dir_of_prefix hroot hpre)
  unfold resolveDest
  cases hrel : sanitizeRel path with
  | error e => simp
  | ok r =>
      by_cases hc : checkAncestors fs r root r.comps = .ok ()
      · simp only [hc]
        constructor
        · intro h
          exact ⟨h, Except.ok.inj h ▸ (hcheck r).mp hc⟩
        · intro h
          exact h.1
      · have hnot : ¬ ClearWay fs root r.comps := fun h => hc ((hcheck r).mpr h)
        constructor
        · intro h
          cases hx : checkAncestors fs r root r.comps with
          | error e =>
              simp only [hx] at h
              cases h
          | ok u => exact absurd hx hc
        · intro h
          obtain ⟨heq, hclear⟩ := h
          cases heq
          exact absurd hclear hnot

/-! ## The temporary file -/

/-- A temporary file in the directory `T`. -/
def ownTmp (T : Path) (pid n : Nat) : Path := T ++ [tmpName pid n (str "revert")]

theorem validName_revert (pid n : Nat) : ValidName (tmpName pid n (str "revert")) :=
  validName_tmpName (by decide) (by decide)

/-- The worktree is there and the temporary directory, if its path leads
anywhere, is `T`: there it led once, and since then the tree only grew. -/
structure Ready (st : Store) (T : Path) (fs : Fs) : Prop where
  root : fs.get st.root = some .dir
  leads : ∃ fs₀ : Fs, fs₀.resolve false (tmpDir st ++ [dot]) = .ok T ∧ Fs.Grows fs₀ fs

namespace Ready

variable {T : Path} {fs fs' : Fs}

theorem grow (h : Ready st T fs) (hgrows : Fs.Grows fs fs') : Ready st T fs' := by
  obtain ⟨fs₀, hres, h₀⟩ := h.leads
  exact ⟨hgrows.dirs _ h.root, fs₀, hres, h₀.trans hgrows⟩

theorem dir (h : Ready st T fs) : fs.get T = some .dir := by
  obtain ⟨fs₀, hres, h₀⟩ := h.leads
  exact h₀.dirs _ (Fs.resolve_dot hres)

/-- A temporary file is in `T`. -/
theorem resolve_tmp (h : Ready st T fs) {pid n : Nat} {q : Path}
    (hres : fs.resolve false (tmpDir st ++ [tmpName pid n (str "revert")]) = .ok q) :
    q = ownTmp T pid n ∧ fs.resolve false (tmpDir st ++ [dot]) = .ok T := by
  rw [Fs.resolve_snoc (validName_revert pid n)] at hres
  cases hdot : fs.resolve false (tmpDir st ++ [dot]) with
  | error e => rw [hdot] at hres; cases hres
  | ok T' =>
      obtain ⟨fs₀, hres₀, h₀⟩ := h.leads
      have hT : T = T' := Fs.resolve_grows h₀ hres₀ hdot
      rw [hdot] at hres
      subst hT
      exact ⟨(Except.ok.inj hres).symm, rfl⟩

end Ready

/-- Copying the chunks appends what it returns, or a beginning of it. -/
theorem copyChunks_after {f : Path} {old : FileData} {m : Machine}
    (hf : m.fs.get f = some (.file old)) (chunks : List Hash) :
    After (copyChunks X st f chunks m) (fun data => Appended f old.bytes data m)
      (fun _ m' => ∃ data, Appended f old.bytes data m m') := by
  have hstart : Appended f old.bytes ([] : List Bytes).flatten m m :=
    ⟨⟨old, hf, by simp⟩, fun _ _ => rfl, Machine.Ran.refl _⟩
  have hloop : After (collect chunks (fun ch => do
        let data ← look fun fs => st.getObject X fs ch
        io (writeAll f data)
        pure (some data)) m)
      (fun parts => Appended f old.bytes ([] ++ parts).flatten m)
      (fun _ m' => ∃ data, Appended f old.bytes data m m') := by
    apply After.collectAcc (I := fun _ acc => Appended f old.bytes acc.flatten m) (d := [])
      hstart
    intro ch hch done acc m' h
    apply After.bind (P := fun _ m'' => m'' = m')
    · exact after_look (fun _ _ => rfl) fun _ _ => ⟨_, h⟩
    · intro data m'' heq
      subst heq
      apply After.bind (P := fun _ => Appended f old.bytes (acc.flatten ++ data) m)
      · exact after_io (h.write data)
      · intro _ m₃ h₃
        simpa using h₃
  exact After.bind hloop fun parts m' h => h

/-! ## Replacing a destination -/

/-- An attempt that failed leaves at most a temporary file. -/
structure Tried (tmp : Path) (m m' : Machine) : Prop where
  grows : Fs.Grows m.fs m'.fs
  ran : Machine.Ran (TmpEvent tmp) m m'

theorem tried_of_opened {tmp : Path} {data : Bytes} {m m' : Machine}
    (h : Opened tmp data m m') : Tried tmp m m' := ⟨h.grows, h.ran⟩

/-- The entry's content was put at `dest`, and nothing else changed. -/
structure Placed (tmp dest : Path) (fe : FileEntry) (m m' : Machine) : Prop where
  notDir : m.fs.get dest ≠ some .dir
  content : ∃ d, m'.fs.get dest = some (.file d) ∧ X.blake3 d.bytes = fe.content
  frame : ∀ q, q ≠ dest → m'.fs.get q = m.fs.get q
  ran : Machine.Ran (fun e => TmpEvent tmp e ∨ e = .rename tmp dest ∨
    ∃ mode, e = .chmod dest mode) m m'
  renamed : .rename tmp dest ∈ m.since m'

variable {X}

/-- With the content placed the tree has grown. -/
theorem Placed.grows {tmp dest : Path} {fe : FileEntry} {m m' : Machine}
    (h : Placed X tmp dest fe m m') : Fs.Grows m.fs m'.fs := by
  apply Fs.grows_of_files
  intro q
  by_cases hq : q = dest
  · obtain ⟨d, hd, _⟩ := h.content
    subst hq
    exact Or.inr ⟨h.notDir, d, hd⟩
  · exact Or.inl (h.frame q hq)

/-- Where a destination is found that is no directory, it is where the
components say and the path does not ask for a directory. -/
theorem resolve_under {fs : Fs} {root q : Path} {rel : RelPath} (hroot : fs.get root = some .dir)
    (hparent : fs.get (root ++ rel.comps.dropLast) = some .dir)
    (hres : fs.resolve false (rel.under root) = .ok q) (hq : fs.get q ≠ some .dir) :
    rel.dirOnly = false ∧ q = root ++ rel.comps := by
  unfold RelPath.under at hres
  cases hdir : rel.dirOnly with
  | true =>
      rw [hdir] at hres
      exact absurd (Fs.resolve_dot hres) hq
  | false =>
      refine ⟨rfl, ?_⟩
      have hself : fs.resolve false (root ++ rel.comps) = .ok (root ++ rel.comps) := by
        apply Fs.resolve_of_parent (valid_under hroot rel) _ _ (by simp)
        · simp [rel.nonempty]
        · rw [List.dropLast_append_of_ne_nil rel.nonempty]
          exact hparent
      rw [hdir] at hres
      simp only [Bool.false_eq_true, if_false, List.append_nil] at hres
      rw [hself] at hres
      exact (Except.ok.inj hres).symm

/-- Opening the temporary file. -/
theorem openTmp_after {T : Path} {m : Machine} {pid n : Nat} (hready : Ready st T m.fs) :
    After (io (createNew (tmpDir st ++ [tmpName pid n (str "revert")]) defaultMode) m)
      (fun f m' => f = ownTmp T pid n ∧ Opened (ownTmp T pid n) [] m m' ∧
        m.fs.resolve false (tmpDir st ++ [dot]) = .ok T)
      (fun _ m' => m' = m) := by
  apply after_io
  cases h : createNew (tmpDir st ++ [tmpName pid n (str "revert")]) defaultMode m.toWorld with
  | error e w =>
      have hw := createNew_error h
      subst hw
      rfl
  | ok f w =>
      obtain ⟨hres, hopened⟩ := opened_of_createNew h
      obtain ⟨rfl, hleads⟩ := hready.resolve_tmp hres
      exact ⟨rfl, hopened, hleads⟩

/-- Discarding the temporary file. -/
theorem discard_after {T : Path} {m m' : Machine} {pid n : Nat} {data : Bytes}
    (hready : Ready st T m.fs) (h : Opened (ownTmp T pid n) data m m') :
    Tried (ownTmp T pid n) m
      (finalState (ignore (removeFile (tmpDir st ++ [tmpName pid n (str "revert")])) m')) := by
  unfold ignore
  cases hrm : removeFile (tmpDir st ++ [tmpName pid n (str "revert")]) m'.toWorld with
  | error e w =>
      have hw := removeFile_error hrm
      subst hw
      exact tried_of_opened h
  | ok u w =>
      obtain ⟨r, x, hres, hleaf, rfl⟩ := removeFile_ok hrm
      obtain ⟨rfl, _⟩ := (hready.grow h.grows).resolve_tmp hres
      have hget := Fs.get_exec_unlink hleaf
      refine ⟨?_, h.ran.trans (Machine.Ran.perform (Or.inr (Or.inr rfl)))⟩
      apply Fs.grows_of_files
      intro q
      left
      refine (hget q).trans ?_
      by_cases hq : q = ownTmp T pid n
      · rw [if_pos hq, hq, h.absent]
      · rw [if_neg hq, h.frame q hq]

theorem RelPath.under_plain {rel : RelPath} (h : rel.dirOnly = false) (root : Path) :
    rel.under root = root ++ rel.comps := by
  simp [RelPath.under, h]

/-- Setting the mode of a file at its physical path. -/
theorem setMode_of_file {p : Path} {d : FileData} {m : Machine} {mode : Nat}
    (h : m.fs.get p = some (.file d)) :
    setMode p mode m = .ok () { m with toWorld := m.toWorld.perform (.chmod p (mode % 512)) } := by
  have hres : m.fs.resolve true p = .ok p := Fs.resolve_of_get h (by simp)
  have hset : setPermissions p (mode % 512) m.toWorld =
      .ok () (m.toWorld.perform (.chmod p (mode % 512))) := by
    unfold setPermissions
    rw [hres]
    simp only [h]
  unfold setMode io
  rw [hset]

/-- A file whose mode was set has it. -/
theorem setMode_ok {p : Path} {d : FileData} {m m' : Machine} {mode : Nat} {u : Unit}
    (h : setMode p mode m = .ok u m') (hd : m'.fs.get p = some (.file d)) :
    d.mode = mode % 512 := by
  obtain ⟨w, hset, rfl⟩ := io_eq_ok.mp h
  obtain ⟨r, x, hres, hx, rfl⟩ := setPermissions_ok hset
  have hexec : (m.fs.modifyFile r fun d => { d with mode := mode % 512 }).get p =
      some (.file d) := hd
  obtain ⟨d₀, hd₀⟩ : ∃ d₀, m.fs.get p = some (.file d₀) := by
    by_cases hpr : p = r
    · subst hpr
      cases x with
      | file d₀ => exact ⟨d₀, hx⟩
      | dir =>
          rw [Fs.modifyFile, hx] at hexec
          exact ⟨d, by rw [← hexec, hx]⟩
      | symlink t =>
          rw [Fs.modifyFile, hx] at hexec
          exact ⟨d, by rw [← hexec, hx]⟩
    · rw [Fs.get_modifyFile_of_ne hpr] at hexec
      exact ⟨d, hexec⟩
  have hr : r = p := Except.ok.inj (hres.symm.trans (Fs.resolve_of_get hd₀ (by simp)))
  subst hr
  rw [Fs.get_modifyFile hd₀, if_pos rfl] at hexec
  cases hexec
  rfl

/-- The temporary file is found in `T`, and moved to where the components say. -/
theorem rename_tmp_ok {T : Path} {w w' : World} {pid n : Nat} {rel : RelPath} {u : Unit}
    (hready : Ready st T w.fs)
    (hparent : w.fs.get (st.root ++ rel.comps.dropLast) = some .dir)
    (hren : rename (tmpDir st ++ [tmpName pid n (str "revert")]) (rel.under st.root) w =
      .ok u w') :
    rel.dirOnly = false ∧ w.fs.Room (st.root ++ rel.comps) ∧
      w' = w.perform (.rename (ownTmp T pid n) (st.root ++ rel.comps)) := by
  obtain ⟨p', q', x, hp', hq', hx, hnot, rfl⟩ := rename_ok hren
  obtain ⟨rfl, _⟩ := hready.resolve_tmp hp'
  obtain ⟨hplain, rfl⟩ := resolve_under hready.root hparent hq' hnot
  refine ⟨hplain, ?_, rfl⟩
  -- the parent is a directory, so there is room for the file
  rcases Fs.resolve_reached hq' with ⟨y, hy⟩ | ⟨hne, hpar, hvalid⟩
  · apply Fs.room_of_leaf hy
    intro hydir
    exact hnot (by rw [hy, hydir])
  · exact ⟨hne, hpar, hnot, hvalid⟩

/-- Moving the temporary file over the destination and setting its mode.  Only
a path that asks for a directory, or a directory in the way, prevents it. -/
theorem replace_after {T : Path} {m m' : Machine} {pid n : Nat} {data : Bytes}
    {rel : RelPath} {fe : FileEntry} (hready : Ready st T m.fs)
    (hleads : m.fs.resolve false (tmpDir st ++ [dot]) = .ok T)
    (hparent : m.fs.get (st.root ++ rel.comps.dropLast) = some .dir)
    (h : Opened (ownTmp T pid n) data m m') (hdata : X.blake3 data = fe.content) :
    After ((do
        io (rename (tmpDir st ++ [tmpName pid n (str "revert")]) (rel.under st.root))
        setMode (rel.under st.root) fe.mode : Sys Unit) m')
      (fun _ m'' => rel.dirOnly = false ∧
        Placed X (ownTmp T pid n) (st.root ++ rel.comps) fe m m'')
      (fun _ m'' => m'' = m' ∧ (rel.dirOnly = true ∨
        m.fs.get (st.root ++ rel.comps) = some .dir)) := by
  obtain ⟨d, hd, hbytes⟩ := h.file
  have hready' := hready.grow h.grows
  have hparent' := h.grows.dirs _ hparent
  have hsub : ∀ q x, m.fs.get q = some x → m'.fs.get q = some x := by
    intro q x hx
    rw [h.frame q, hx]
    intro hq
    rw [hq, h.absent] at hx
    cases hx
  have htmp : m'.fs.resolve false (tmpDir st ++ [tmpName pid n (str "revert")]) =
      .ok (ownTmp T pid n) := by
    rw [Fs.resolve_snoc (validName_revert pid n), Fs.resolve_sub hsub hready'.dir hleads]
    rfl
  have hleaf : m'.fs.leaf (ownTmp T pid n) = some (.file d) :=
    m'.fs.leaf_eq_some.mpr ⟨hd, by simp⟩
  have hdir : m'.fs.get (st.root ++ rel.comps) = some .dir →
      m.fs.get (st.root ++ rel.comps) = some .dir := by
    intro hdest
    rw [← h.frame _, hdest]
    intro heq
    rw [heq, hd] at hdest
    cases hdest
  cases hren : rename (tmpDir st ++ [tmpName pid n (str "revert")]) (rel.under st.root)
      m'.toWorld with
  | error e w =>
      have hw := rename_error hren
      subst hw
      rw [bind_apply, io, hren]
      refine ⟨rfl, ?_⟩
      by_cases hplain : rel.dirOnly = true
      · exact Or.inl hplain
      · have hdest : m'.fs.resolve false (st.root ++ rel.comps) = .ok (st.root ++ rel.comps) := by
          apply Fs.resolve_of_parent (valid_under hready'.root rel) _ _ (by simp)
          · simp [rel.nonempty]
          · rw [List.dropLast_append_of_ne_nil rel.nonempty]
            exact hparent'
        rw [RelPath.under_plain (by simpa using hplain)] at hren
        unfold rename at hren
        rw [htmp, hdest] at hren
        simp only [hleaf, Option.isNone_some, Bool.false_eq_true, if_false] at hren
        split at hren
        case _ hget => exact Or.inr (hdir hget)
        · cases hren
  | ok u w =>
      obtain ⟨hplain, hroom, rfl⟩ := rename_tmp_ok hready' hparent' hren
      have hnot := hroom.2.2.1
      obtain ⟨⟨d', hfile, hbytes'⟩, hframe⟩ := h.rename hroom
      rw [bind_apply, io, hren]
      simp only
      rw [RelPath.under_plain hplain, setMode_of_file hfile]
      have hget' : ∀ q, ((m'.fs.exec (.rename (ownTmp T pid n) (st.root ++ rel.comps))).exec
          (.chmod (st.root ++ rel.comps) (fe.mode % 512))).get q = _ := fun q =>
        Fs.get_modifyFile hfile _ q
      refine ⟨hplain, fun hdest => hnot (h.grows.dirs _ hdest), ?_, ?_, ?_, ?_⟩
      · exact ⟨_, (hget' _).trans (if_pos rfl), by rw [hbytes', hdata]⟩
      · intro q hq
        exact (hget' q).trans ((if_neg hq).trans (hframe q hq))
      · refine (h.ran.mono fun e he => Or.inl he).trans ?_
        refine Machine.Ran.trans (Machine.Ran.perform (Or.inr (Or.inl rfl))) ?_
        exact Machine.Ran.perform (Or.inr (Or.inr ⟨_, rfl⟩))
      · obtain ⟨evs, hevs⟩ : ∃ evs, m'.trace = m.trace ++ evs := ⟨_, h.ran.trace_eq⟩
        simp [Machine.since, hevs]

variable (X st)

/-- The chunks of an entry load, and copied into a fresh temporary file they
have the entry's content. -/
def Assembles (fe : FileEntry) (m : Machine) : Prop :=
  ∃ data m', (do
      let tmp ← tmpPath (tmpDir st) (str "revert")
      let f ← io (createNew tmp defaultMode)
      copyChunks X st f fe.chunks : Sys Bytes) m = .ok data m' ∧ X.blake3 data = fe.content

variable {X st}

/-- Its temporary file can be made, and the copy has the content. -/
theorem assembles_iff {m : Machine} {fe : FileEntry} : Assembles X st fe m ↔ ∃ f m₂ data m₃,
    io (createNew (tmpDir st ++ [tmpName m.pid m.tmpCounter (str "revert")]) defaultMode)
      { m with tmpCounter := m.tmpCounter + 1 } = .ok f m₂ ∧
    copyChunks X st f fe.chunks m₂ = .ok data m₃ ∧ X.blake3 data = fe.content := by
  unfold Assembles
  constructor
  · intro h
    obtain ⟨data, m₃, hrun, hdata⟩ := h
    obtain ⟨tmp, m₁, htmp, hrun⟩ := bind_eq_ok.mp hrun
    cases htmp
    obtain ⟨f, m₂, hcreate, hcopy⟩ := bind_eq_ok.mp hrun
    exact ⟨f, m₂, data, m₃, hcreate, hcopy, hdata⟩
  · intro h
    obtain ⟨f, m₂, data, m₃, hcreate, hcopy, hdata⟩ := h
    exact ⟨data, m₃, bind_eq_ok.mpr ⟨_, _, rfl, bind_eq_ok.mpr ⟨f, m₂, hcreate, hcopy⟩⟩, hdata⟩

/-- **Replacing a destination.**  It succeeds when the content assembles and
nothing but a file or a link is in the way; then the content is in place.
Otherwise at most a temporary file was made. -/
theorem materialize_after {T : Path} {m : Machine} {rel : RelPath} {fe : FileEntry}
    (hready : Ready st T m.fs)
    (hparent : m.fs.get (st.root ++ rel.comps.dropLast) = some .dir) :
    After (materialize X st (rel.under st.root) fe m)
      (fun _ m' => rel.dirOnly = false ∧ Assembles X st fe m ∧
        Placed X (ownTmp T m.pid m.tmpCounter) (st.root ++ rel.comps) fe m m')
      (fun _ m' => Tried (ownTmp T m.pid m.tmpCounter) m m' ∧
        (Assembles X st fe m → rel.dirOnly = true ∨
          m.fs.get (st.root ++ rel.comps) = some .dir)) := by
  have hopen : After (io (createNew
      (tmpDir st ++ [tmpName m.pid m.tmpCounter (str "revert")]) defaultMode)
      { m with tmpCounter := m.tmpCounter + 1 }) _ _ := openTmp_after hready
  have hassembles : Assembles X st fe m ↔ _ := assembles_iff
  have hunfold : materialize X st (rel.under st.root) fe m =
      (io (createNew (tmpDir st ++ [tmpName m.pid m.tmpCounter (str "revert")]) defaultMode) >>=
        fun f => copyChunks X st f fe.chunks >>= fun data =>
          if X.blake3 data ≠ fe.content then do
            ignore (removeFile (tmpDir st ++ [tmpName m.pid m.tmpCounter (str "revert")]))
            throw (.corrupt (str "reconstructed content mismatch for " ++ fe.path))
          else do
            io (rename (tmpDir st ++ [tmpName m.pid m.tmpCounter (str "revert")])
              (rel.under st.root))
            setMode (rel.under st.root) fe.mode)
        { m with tmpCounter := m.tmpCounter + 1 } := rfl
  rw [hunfold, bind_apply]
  cases hcreate : io (createNew (tmpDir st ++ [tmpName m.pid m.tmpCounter (str "revert")])
      defaultMode) { m with tmpCounter := m.tmpCounter + 1 } with
  | error e m₂ =>
      rw [hcreate] at hopen hassembles
      have hm₂ : m₂ = { m with tmpCounter := m.tmpCounter + 1 } := hopen
      subst hm₂
      refine ⟨⟨Fs.Grows.refl _, World.Extends.refl _, rfl, rfl⟩, ?_⟩
      intro h
      obtain ⟨f, m₂, data, m₃, hbad, _⟩ := hassembles.mp h
      cases hbad
  | ok f m₂ =>
      rw [hcreate] at hopen hassembles
      obtain ⟨rfl, hopened, hleads⟩ := hopen
      have hopened' : Opened (ownTmp T m.pid m.tmpCounter) [] m m₂ :=
        ⟨hopened.absent, hopened.file, hopened.frame, hopened.ran.events, hopened.ran.pid,
          hopened.ran.keychain⟩
      obtain ⟨old, hold, holdbytes⟩ := hopened'.file
      have hcopied : After (copyChunks X st _ fe.chunks m₂) _ _ :=
        copyChunks_after X hold fe.chunks
      rw [holdbytes] at hcopied
      simp only
      rw [bind_apply]
      cases hcopy : copyChunks X st (ownTmp T m.pid m.tmpCounter) fe.chunks m₂ with
      | error e m₃ =>
          rw [hcopy] at hcopied
          obtain ⟨data, happ⟩ := hcopied
          refine ⟨tried_of_opened (hopened'.append happ), ?_⟩
          intro h
          obtain ⟨f, m₂', data, m₃, hf, hbad, _⟩ := hassembles.mp h
          cases hf
          rw [hcopy] at hbad
          cases hbad
      | ok data m₃ =>
          rw [hcopy] at hcopied
          have happ := hopened'.append hcopied
          simp only
          by_cases hdata : X.blake3 data = fe.content
          · rw [if_neg (not_not.mpr hdata)]
            have hfull : Assembles X st fe m :=
              hassembles.mpr ⟨_, _, data, m₃, rfl, hcopy, hdata⟩
            apply (replace_after hready hleads hparent happ hdata).mono
            · intro _ m' h
              exact ⟨h.1, hfull, h.2⟩
            · intro _ m' h
              exact ⟨h.1 ▸ tried_of_opened happ, fun _ => h.2⟩
          · rw [if_pos hdata]
            refine ⟨discard_after hready happ, ?_⟩
            intro h
            obtain ⟨f, m₂', data', m₃', hf, hcopy', hdata'⟩ := hassembles.mp h
            cases hf
            rw [hcopy] at hcopy'
            cases hcopy'
            exact absurd hdata' hdata

/-! ## One entry -/

/-- On a clear way to `root ++ comps` every ancestor is a directory or missing. -/
theorem ClearWay.ancestors {fs : Fs} {root : Path} {comps : List Name}
    (hroot : fs.get root = some .dir) (h : ClearWay fs root comps) (hne : comps ≠ []) :
    ∀ pre, pre <+: root ++ comps.dropLast → fs.get pre = some .dir ∨ fs.get pre = none := by
  intro pre hpre
  rcases List.prefix_or_prefix_of_prefix hpre (List.prefix_append root _) with hin | ⟨tail, heq⟩
  · exact Or.inl (Fs.dir_of_prefix hroot hin)
  · subst heq
    have htail := (List.prefix_append_right_inj root).mp hpre
    apply h tail (htail.trans (List.dropLast_prefix comps))
    intro hall
    have hlen := htail.length_le
    have hpos := List.length_pos_iff.mpr hne
    rw [hall, List.length_dropLast] at hlen
    omega

/-- The directories above `root ++ comps` were made. -/
structure WayMade (root : Path) (comps : List Name) (m m' : Machine) : Prop where
  made : io (createDirAll (root ++ comps.dropLast)) m = .ok () m'
  parent : m'.fs.get (root ++ comps.dropLast) = some .dir
  dirs : MadeDirs (root ++ comps.dropLast) m.toWorld m'.toWorld
  pid : m'.pid = m.pid
  keychain : m'.keychain = m.keychain
  dest : m'.fs.get (root ++ comps) = m.fs.get (root ++ comps)

/-- Making the parents of a destination on a clear way succeeds. -/
theorem makeParents {root : Path} {comps : List Name} {m : Machine}
    (hroot : m.fs.get root = some .dir) (hnames : ∀ n ∈ root ++ comps, ValidName n)
    (h : ClearWay m.fs root comps) (hne : comps ≠ []) : ∃ m₁, WayMade root comps m m₁ := by
  have hanc := h.ancestors hroot hne
  have hnames' : ∀ n ∈ root ++ comps.dropLast, ValidName n := by
    intro n hn
    apply hnames n
    rcases List.mem_append.mp hn with hn | hn
    · exact List.mem_append_left _ hn
    · exact List.mem_append_right _ (List.mem_of_mem_dropLast hn)
  obtain ⟨w, hw⟩ := createDirAll_ok (w := m.toWorld) hnames' hanc
  have hafter := createDirAll_after (w := m.toWorld) hnames' fun pre hpre t ht => by
    rcases hanc pre hpre with hx | hx <;> rw [hx] at ht <;> cases ht
  rw [hw] at hafter
  refine ⟨{ m with toWorld := w }, io_eq_ok.mpr ⟨w, hw, rfl⟩, hafter.2, hafter.1, rfl, rfl, ?_⟩
  rcases hafter.1.adds (root ++ comps) with heq | ⟨hpre, _, _⟩
  · exact heq
  · have hlen := hpre.length_le
    have hpos := List.length_pos_iff.mpr hne
    simp only [List.length_append, List.length_dropLast] at hlen
    omega

variable (X)

/-- No file with the entry's content stands at `dest`. -/
def Differs (dest : Path) (fe : FileEntry) (fs : Fs) : Prop :=
  ∀ d, fs.get dest = some (.file d) → X.blake3 d.bytes ≠ fe.content

variable {X}

/-- Whether an entry has to be written is decided by what stands at its
destination; one that asks for a directory always is. -/
theorem needsWrite_eq {fs : Fs} {root : Path} {rel : RelPath} {fe : FileEntry}
    (hroot : fs.get root = some .dir)
    (hparent : fs.get (root ++ rel.comps.dropLast) = some .dir) :
    ∃ b, needsWrite X (rel.under root) fe fs = .ok b ∧
      (b = true ↔ rel.dirOnly = true ∨ Differs X (root ++ rel.comps) fe fs) := by
  unfold needsWrite Fs.symlinkMetadata
  cases hdir : rel.dirOnly with
  | true =>
      refine ⟨true, ?_, by simp⟩
      have hnofile : ∀ q d, fs.resolve false (rel.under root) = .ok q →
          fs.get q ≠ some (.file d) := by
        intro q d hres hq
        have hplain := (resolve_under hroot hparent hres (by simp [hq])).1
        rw [hdir] at hplain
        cases hplain
      cases hres : fs.resolve false (rel.under root) with
      | error e => rfl
      | ok q =>
          cases hx : fs.get q with
          | none => simp only [hx]
          | some x => cases x with
            | file d => exact absurd hx (hnofile q d hres)
            | dir => simp only [hx]
            | symlink t => simp only [hx]
  | false =>
      have hres : fs.resolve false (root ++ rel.comps) = .ok (root ++ rel.comps) := by
        apply Fs.resolve_of_parent (valid_under hroot rel) _ _ (by simp)
        · simp [rel.nonempty]
        · rw [List.dropLast_append_of_ne_nil rel.nonempty]
          exact hparent
      rw [RelPath.under_plain hdir, hres]
      unfold Differs
      cases hx : fs.get (root ++ rel.comps) with
      | none => exact ⟨true, by simp only [hx], by simp⟩
      | some x => cases x with
        | dir => exact ⟨true, by simp only [hx], by simp⟩
        | symlink t => exact ⟨true, by simp only [hx], by simp⟩
        | file d =>
            refine ⟨decide (X.blake3 d.bytes ≠ fe.content), ?_, by simp⟩
            simp only [hx, Fs.read_of_get hx]

variable (X st)

/-- Nothing keeps `writeEntry` from replacing the destination of the entry: the
way is clear, the path does not ask for a directory and none stands there, the
content is not there already, and it assembles once the parents are made. -/
structure Replaceable (fe : FileEntry) (rel : RelPath) (m : Machine) : Prop where
  path : sanitizeRel fe.path = .ok rel
  clear : ClearWay m.fs st.root rel.comps
  plain : rel.dirOnly = false
  free : m.fs.get (st.root ++ rel.comps) ≠ some .dir
  differs : Differs X (st.root ++ rel.comps) fe m.fs
  assembles : ∀ m₁, io (createDirAll (st.root ++ rel.comps.dropLast)) m = .ok () m₁ →
    Assembles X st fe m₁

/-- What `writeEntry` may do: make directories in the worktree, work on a
temporary file, and replace the destination where nothing prevents it. -/
def EntryEvent (T : Path) (fe : FileEntry) (m : Machine) (e : Event) : Prop :=
  (∃ q, e = .mkdir q ∧ st.root <+: q ∧ q ≠ st.root) ∨
    (∃ n, TmpEvent (ownTmp T m.pid n) e) ∨
    ∃ rel, Replaceable X st fe rel m ∧
      ((∃ n, e = .rename (ownTmp T m.pid n) (st.root ++ rel.comps)) ∨
        ∃ mode, e = .chmod (st.root ++ rel.comps) mode)

/-- What an entry does to the disk, whatever its outcome. -/
structure Entered (T : Path) (fe : FileEntry) (m m' : Machine) : Prop where
  grows : Fs.Grows m.fs m'.fs
  ran : Machine.Ran (EntryEvent X st T fe m) m m'

/-- The destination of an entry has the entry's content, and no other file or
link changed. -/
structure Written (fe : FileEntry) (rel : RelPath) (m m' : Machine) : Prop where
  path : sanitizeRel fe.path = .ok rel
  plain : rel.dirOnly = false
  content : ∃ d, m'.fs.get (st.root ++ rel.comps) = some (.file d) ∧
    X.blake3 d.bytes = fe.content
  leaves : ∀ q, q ≠ st.root ++ rel.comps → m'.fs.leaf q = m.fs.leaf q

variable {X st}

/-- Directories made for the parents of a destination are in the worktree. -/
theorem entryEvent_of_mkdir {T : Path} {fe : FileEntry} {m : Machine} {comps : List Name}
    (hroot : m.fs.get st.root = some .dir) {e : Event}
    (h : ∃ q, e = .mkdir q ∧ q <+: st.root ++ comps ∧ m.fs.get q = none) :
    EntryEvent X st T fe m e := by
  obtain ⟨q, rfl, hq, hnone⟩ := h
  left
  refine ⟨q, rfl, ?_, ?_⟩
  · rcases List.prefix_or_prefix_of_prefix hq (List.prefix_append st.root _) with hin | hunder
    · rw [Fs.dir_of_prefix hroot hin] at hnone
      cases hnone
    · exact hunder
  · intro heq
    rw [heq, hroot] at hnone
    cases hnone

/-- An entry removes no directory. -/
theorem EntryEvent.not_rmdir {T : Path} {fe : FileEntry} {m : Machine} {e : Event}
    (h : EntryEvent X st T fe m e) (p : Path) : e ≠ .rmdir p := by
  rcases h with ⟨_, rfl, _⟩ | ⟨_, htmp⟩ | ⟨_, _, ⟨_, rfl⟩ | ⟨_, rfl⟩⟩
  · simp
  · rcases htmp with ⟨_, _, rfl⟩ | ⟨_, _, rfl⟩ | rfl <;> simp
  · simp
  · simp

/-- An entry can be replaced at one path only. -/
theorem Replaceable.unique {fe : FileEntry} {rel rel' : RelPath} {m : Machine}
    (h : Replaceable X st fe rel' m) (hpath : sanitizeRel fe.path = .ok rel) : rel' = rel :=
  Except.ok.inj (h.path.symm.trans hpath)

namespace WayMade

variable {T : Path} {rel : RelPath} {fe : FileEntry} {m m₁ m₂ : Machine}
  (h : WayMade st.root rel.comps m m₁)

include h

theorem differs_iff : Differs X (st.root ++ rel.comps) fe m₁.fs ↔
    Differs X (st.root ++ rel.comps) fe m.fs := by
  unfold Differs
  rw [h.dest]

theorem entered (hready : Ready st T m.fs) : Entered X st T fe m m₁ :=
  ⟨h.dirs.adds.newDirs.grows,
    ⟨h.dirs.events.mono fun _ he => entryEvent_of_mkdir hready.root he, h.pid, h.keychain⟩⟩

/-- What is done to the temporary file is the entry's. -/
theorem tmpEvent {e : Event} (he : TmpEvent (ownTmp T m₁.pid m₁.tmpCounter) e) :
    EntryEvent X st T fe m e := by
  rw [h.pid] at he
  exact Or.inr (Or.inl ⟨_, he⟩)

/-- Where nothing needs to be written, nothing is, and the content is there. -/
theorem unneeded (hpath : sanitizeRel fe.path = .ok rel)
    (hnot : ¬ (rel.dirOnly = true ∨ Differs X (st.root ++ rel.comps) fe m₁.fs)) :
    Written X st fe rel m m₁ ∧ ∀ rel', ¬ Replaceable X st fe rel' m := by
  obtain ⟨hplain, hsame⟩ := not_or.mp hnot
  refine ⟨⟨hpath, by simpa using hplain, ?_, fun q _ => h.dirs.adds.newDirs.leaf_eq q⟩, ?_⟩
  · simpa [Differs] using hsame
  · intro rel' hrepl
    obtain rfl := hrepl.unique hpath
    exact hsame (h.differs_iff.mpr hrepl.differs)

/-- What fails could not be replaced. -/
theorem not_replaceable (hpath : sanitizeRel fe.path = .ok rel)
    (hwhy : Assembles X st fe m₁ →
      rel.dirOnly = true ∨ m₁.fs.get (st.root ++ rel.comps) = some .dir) (rel' : RelPath) :
    ¬ Replaceable X st fe rel' m := by
  intro hrepl
  obtain rfl := hrepl.unique hpath
  rcases hwhy (hrepl.assembles m₁ h.made) with hdir | hdir
  · rw [hrepl.plain] at hdir
    cases hdir
  · exact hrepl.free (h.dest ▸ hdir)

/-- What was placed could be replaced. -/
theorem replaceable (hpath : sanitizeRel fe.path = .ok rel)
    (hclear : ClearWay m.fs st.root rel.comps) (hplain : rel.dirOnly = false)
    (hneeded : rel.dirOnly = true ∨ Differs X (st.root ++ rel.comps) fe m₁.fs)
    (hassembles : Assembles X st fe m₁)
    (hplaced : Placed X (ownTmp T m₁.pid m₁.tmpCounter) (st.root ++ rel.comps) fe m₁ m₂) :
    Replaceable X st fe rel m := by
  refine ⟨hpath, hclear, hplain, h.dest ▸ hplaced.notDir, ?_, ?_⟩
  · rcases hneeded with hdir | hd
    · rw [hplain] at hdir
      cases hdir
    · exact h.differs_iff.mp hd
  · intro m₁' hmake
    cases h.made.symm.trans hmake
    exact hassembles

/-- The content was placed under the entry's path. -/
theorem placed (hready : Ready st T m.fs) (hrepl : Replaceable X st fe rel m)
    (hplaced : Placed X (ownTmp T m₁.pid m₁.tmpCounter) (st.root ++ rel.comps) fe m₁ m₂) :
    Entered X st T fe m m₂ ∧ Written X st fe rel m m₂ ∧
      .rename (ownTmp T m.pid m₁.tmpCounter) (st.root ++ rel.comps) ∈ m.since m₂ := by
  have hentered : Entered X st T fe m m₁ := h.entered hready
  have hran : Machine.Ran (EntryEvent X st T fe m) m₁ m₂ := by
    apply hplaced.ran.mono
    intro e he
    rcases he with he | he | he
    · exact h.tmpEvent he
    · refine Or.inr (Or.inr ⟨rel, hrepl, Or.inl ⟨m₁.tmpCounter, ?_⟩⟩)
      rw [he, h.pid]
    · exact Or.inr (Or.inr ⟨rel, hrepl, Or.inr he⟩)
  refine ⟨⟨hentered.grows.trans hplaced.grows, hentered.ran.trans hran⟩,
    ⟨hrepl.path, hrepl.plain, hplaced.content, ?_⟩, ?_⟩
  · intro q hq
    rw [← h.dirs.adds.newDirs.leaf_eq q]
    unfold Fs.leaf
    rw [hplaced.frame q hq]
  · rw [hentered.ran.since_trans hran, ← h.pid]
    exact List.mem_append_right _ hplaced.renamed

end WayMade

/-- **One entry of a revert.**  Success leaves the entry's content in its
place; the destination is replaced exactly where nothing prevents it. -/
theorem writeEntry_after {T : Path} {m : Machine} {fe : FileEntry}
    (hready : Ready st T m.fs) :
    After (writeEntry X st st.root fe m)
      (fun out m' => Entered X st T fe m m' ∧ ∃ rel, Written X st fe rel m m' ∧
        ((out = some fe.path ∧
            ∃ n, .rename (ownTmp T m.pid n) (st.root ++ rel.comps) ∈ m.since m') ∨
          (out = none ∧ (∀ rel, ¬ Replaceable X st fe rel m) ∧
            ∀ q, m'.fs.leaf q = m.fs.leaf q)))
      (fun _ m' => Entered X st T fe m m' ∧ ∀ rel, ¬ Replaceable X st fe rel m) := by
  unfold writeEntry
  rw [bind_apply]
  cases hlook : look (resolveDest st.root fe.path) m with
  | error e m₀ =>
      obtain ⟨herr, rfl⟩ := look_eq_error.mp hlook
      refine ⟨⟨Fs.Grows.refl _, Machine.Ran.refl _⟩, ?_⟩
      intro rel h
      rw [(resolveDest_eq_ok hready.root).mpr ⟨h.path, h.clear⟩] at herr
      cases herr
  | ok rel m₀ =>
      obtain ⟨hok, rfl⟩ := look_eq_ok.mp hlook
      obtain ⟨hpath, hclear⟩ := (resolveDest_eq_ok hready.root).mp hok
      obtain ⟨m₁, hway⟩ :=
        makeParents hready.root (valid_under hready.root rel) hclear rel.nonempty
      have hready₁ : Ready st T m₁.fs := hready.grow hway.dirs.adds.newDirs.grows
      obtain ⟨b, hneeds, hb⟩ : ∃ b, needsWrite X (rel.under st.root) fe m₁.fs = .ok b ∧ _ :=
        needsWrite_eq hready₁.root hway.parent
      simp only
      rw [bind_apply, hway.made]
      simp only
      rw [bind_apply, look_eq_ok.mpr ⟨hneeds, rfl⟩]
      simp only
      cases b with
      | false =>
          obtain ⟨hwritten, hrepl⟩ := hway.unneeded hpath fun hneeded => by
            cases hb.mpr hneeded
          exact ⟨hway.entered hready, rel, hwritten,
            Or.inr ⟨rfl, hrepl, hway.dirs.adds.newDirs.leaf_eq⟩⟩
      | true =>
          have hmat : After (materialize X st (rel.under st.root) fe m₁) _ _ :=
            materialize_after hready₁ hway.parent
          simp only [if_true]
          rw [bind_apply]
          cases hrun : materialize X st (rel.under st.root) fe m₁ with
          | error e m₂ =>
              obtain ⟨htried, hwhy⟩ := hmat.error hrun
              have hentered : Entered X st T fe m₀ m₁ := hway.entered hready
              refine ⟨⟨hentered.grows.trans htried.grows, hentered.ran.trans ?_⟩,
                hway.not_replaceable hpath hwhy⟩
              exact htried.ran.mono fun _ he => hway.tmpEvent he
          | ok u m₂ =>
              obtain ⟨hplain, hassembles, hplaced⟩ := hmat.ok hrun
              have hrepl := hway.replaceable hpath hclear hplain (hb.mp rfl) hassembles hplaced
              obtain ⟨hentered, hwritten, hrenamed⟩ := hway.placed hready hrepl hplaced
              exact ⟨hentered, rel, hwritten, Or.inl ⟨rfl, m₁.tmpCounter, hrenamed⟩⟩

/-- Replacing a destination sets its mode last. -/
theorem mode_of_materialize {dest : Path} {fe : FileEntry} {m m' : Machine} {d : FileData}
    {u : Unit} (h : materialize X st dest fe m = .ok u m')
    (hd : m'.fs.get dest = some (.file d)) : d.mode = fe.mode % 512 := by
  unfold materialize at h
  obtain ⟨tmp, m₁, _, h⟩ := bind_eq_ok.mp h
  obtain ⟨f, m₂, _, h⟩ := bind_eq_ok.mp h
  obtain ⟨data, m₃, _, h⟩ := bind_eq_ok.mp h
  split at h
  · obtain ⟨_, m₄, _, h⟩ := bind_eq_ok.mp h
    cases h
  · obtain ⟨_, m₄, _, h⟩ := bind_eq_ok.mp h
    exact setMode_ok h hd

/-- An entry that is written has found another content, and has set the mode. -/
theorem writeEntry_ok {T : Path} {m m' : Machine} {fe : FileEntry} {out : Option Bytes}
    (hready : Ready st T m.fs) (h : writeEntry X st st.root fe m = .ok out m') :
    ∃ rel, Written X st fe rel m m' ∧
      ((¬ Differs X (st.root ++ rel.comps) fe m.fs ∧ ∀ q, m'.fs.leaf q = m.fs.leaf q) ∨
        (Differs X (st.root ++ rel.comps) fe m.fs ∧
          ∀ d, m'.fs.get (st.root ++ rel.comps) = some (.file d) → d.mode = fe.mode % 512)) := by
  have hafter : After (writeEntry X st st.root fe m) _ _ := writeEntry_after hready
  rw [h] at hafter
  obtain ⟨hentered, rel, hwritten, hout⟩ := hafter
  refine ⟨rel, hwritten, ?_⟩
  rcases hout with ⟨rfl, n, hevent⟩ | ⟨rfl, _, hsame⟩
  · right
    have hrepl : Replaceable X st fe rel m := by
      rcases hentered.ran.since hevent with ⟨_, heq, _⟩ | ⟨k, htmp⟩ | ⟨rel', hrel', hdone⟩
      · cases heq
      · rcases htmp with ⟨_, _, heq⟩ | ⟨_, _, heq⟩ | heq <;> cases heq
      · have hrel : rel' = rel := Except.ok.inj (hrel'.path.symm.trans hwritten.path)
        exact hrel ▸ hrel'
    refine ⟨hrepl.differs, ?_⟩
    intro d hd
    unfold writeEntry at h
    obtain ⟨rel', m₀, hlook, hrest⟩ := bind_eq_ok.mp h
    obtain ⟨hok, rfl⟩ := look_eq_ok.mp hlook
    have hrel : rel' = rel :=
      Except.ok.inj (((resolveDest_eq_ok hready.root).mp hok).1.symm.trans hwritten.path)
    obtain ⟨_, m₁, _, hrest₁⟩ := bind_eq_ok.mp hrest
    obtain ⟨needed, m₂, _, hrest₂⟩ := bind_eq_ok.mp hrest₁
    split at hrest₂
    · obtain ⟨_, m₃, hmat, hdone⟩ := bind_eq_ok.mp hrest₂
      cases hdone
      rw [hrel, RelPath.under_plain hwritten.plain] at hmat
      exact mode_of_materialize hmat hd
    · cases hrest₂
  · left
    obtain ⟨d, hd, hcontent⟩ := hwritten.content
    refine ⟨?_, hsame⟩
    intro hdiffers
    have hleaf : m.fs.leaf (st.root ++ rel.comps) = some (.file d) :=
      (hsame _).symm.trans (m'.fs.leaf_eq_some.mpr ⟨hd, by simp⟩)
    exact hdiffers d (m.fs.leaf_eq_some.mp hleaf).1 hcontent

/-! ## The write pass -/

/-- **Every event of the write pass belongs to an entry in the state in which
its turn came.** -/
theorem writePass_after {T : Path} {m : Machine} {files : List FileEntry}
    (hready : Ready st T m.fs) {P : Event → Prop}
    (hP : ∀ pre fe post outs s e, files = pre ++ fe :: post →
      writePass X st st.root pre m = .ok outs s → Ready st T s.fs → s.pid = m.pid →
      EntryEvent X st T fe s e → P e) :
    After (writePass X st st.root files m)
      (fun _ m' => Fs.Grows m.fs m'.fs ∧ Machine.Ran P m m')
      (fun _ m' => Fs.Grows m.fs m'.fs ∧ Machine.Ran P m m') := by
  apply After.collectReach (I := fun s => Fs.Grows m.fs s.fs ∧ Machine.Ran P m s)
    ⟨Fs.Grows.refl _, Machine.Ran.refl _⟩
  intro pre fe post outs s hfiles hpre h
  obtain ⟨hgrows, hran⟩ := h
  have hready' := hready.grow hgrows
  have hstep : ∀ m', Entered X st T fe s m' → Fs.Grows m.fs m'.fs ∧ Machine.Ran P m m' := by
    intro m' h
    refine ⟨hgrows.trans h.grows, hran.trans (h.ran.mono fun e he => ?_)⟩
    exact hP pre fe post outs s e hfiles hpre hready' hran.pid he
  apply (writeEntry_after hready').mono
  · intro out m' h
    exact hstep m' h.1
  · intro e m' h
    exact hstep m' h.1

/-- Where an entry belongs. -/
def destination (root : Path) (fe : FileEntry) : Option Path :=
  match sanitizeRel fe.path with
  | .ok rel => some (root ++ rel.comps)
  | .error _ => none

/-- The last entry with this destination. -/
def lastAt (root : Path) (files : List FileEntry) (q : Path) : Option FileEntry :=
  files.reverse.find? fun fe => destination root fe = some q

/-- The last entry for a place is the one just added, if it is for that place.
-/
theorem lastAt_concat (root : Path) (files : List FileEntry) (fe : FileEntry) (q : Path) :
    lastAt root (files ++ [fe]) q =
      if destination root fe = some q then some fe else lastAt root files q := by
  unfold lastAt
  rw [List.reverse_append, List.reverse_singleton, List.singleton_append, List.find?_cons]
  by_cases h : destination root fe = some q <;> simp [h]

/-- The last entry at a place is one of the entries and goes there. -/
theorem mem_of_lastAt {root : Path} {files : List FileEntry} {q : Path} {fe : FileEntry}
    (h : lastAt root files q = some fe) : fe ∈ files ∧ destination root fe = some q := by
  refine ⟨List.mem_reverse.mp (List.mem_of_find?_eq_some h), ?_⟩
  have hq := List.find?_some h
  simpa using hq

theorem lastAt_eq_none {root : Path} {files : List FileEntry} {q : Path} :
    lastAt root files q = none ↔ ∀ fe ∈ files, destination root fe ≠ some q := by
  simp [lastAt, List.find?_eq_none]

/-- What the files of a tree are after every entry was written: at a
destination the content of its last entry, elsewhere what was there. -/
def Restored (X : Crates) (root : Path) (files : List FileEntry) (fs fs' : Fs) : Prop :=
  ∀ q, match lastAt root files q with
    | none => fs'.leaf q = fs.leaf q
    | some fe => ∃ d, fs'.leaf q = some (.file d) ∧ X.blake3 d.bytes = fe.content

/-- **A write pass that succeeds restores every entry.** -/
theorem writePass_ok {T : Path} {m m' : Machine} {files : List FileEntry} {outs : List Bytes}
    (hready : Ready st T m.fs) (h : writePass X st st.root files m = .ok outs m') :
    Restored X st.root files m.fs m'.fs ∧ Fs.Grows m.fs m'.fs ∧
      ∀ fe ∈ files, ∃ rel, sanitizeRel fe.path = .ok rel ∧ rel.dirOnly = false := by
  induction files using List.reverseRecOn generalizing outs m' with
  | nil =>
      cases h
      refine ⟨fun q => ?_, Fs.Grows.refl _, by simp⟩
      simp [lastAt]
  | append_singleton files fe ih =>
      obtain ⟨outs₁, outs₂, u, hfirst, hlast, rfl⟩ := collect_append_eq_ok.mp h
      obtain ⟨hrest, hgrows, hplain⟩ := ih hfirst
      have hentry : After (writeEntry X st st.root fe u) _ _ :=
        writeEntry_after (hready.grow hgrows)
      obtain ⟨out, t, hwrite, htail⟩ := bind_eq_ok.mp hlast
      cases htail
      rw [hwrite] at hentry
      obtain ⟨hentered, rel, hwritten, _⟩ := hentry
      have hdest : destination st.root fe = some (st.root ++ rel.comps) := by
        simp only [destination, hwritten.path]
      refine ⟨?_, hgrows.trans hentered.grows, ?_⟩
      · intro q
        rw [lastAt_concat, hdest]
        by_cases hq : q = st.root ++ rel.comps
        · obtain ⟨d, hd, hcontent⟩ := hwritten.content
          rw [if_pos (by rw [hq])]
          exact ⟨d, by rw [hq]; exact Fs.leaf_eq_some _ |>.mpr ⟨hd, by simp⟩, hcontent⟩
        · rw [if_neg (fun heq => hq (Option.some.inj heq).symm), hwritten.leaves q hq]
          exact hrest q
      · intro f hf
        rcases List.mem_append.mp hf with hf | hf
        · exact hplain f hf
        · rw [List.mem_singleton.mp hf]
          exact ⟨rel, hwritten.path, hwritten.plain⟩

/-- The write pass makes no difference to what can be listed. -/
theorem writePass_sealed {T : Path} {m m' : Machine} {files : List FileEntry} {outs : List Bytes}
    (hready : Ready st T m.fs) (h : writePass X st st.root files m = .ok outs m') :
    m'.fs.sealed = m.fs.sealed := by
  have hafter : After (writePass X st st.root files m) _ _ :=
    writePass_after (P := fun e => ∀ p, e ≠ .rmdir p) hready
      fun _ _ _ _ _ _ _ _ _ _ he => he.not_rmdir
  exact (hafter.ok h).2.events.sealed_eq fun _ he => he

/-- Whether an entry differs is told by the leaf in its place. -/
theorem differs_congr {q : Path} {fe : FileEntry} {fs fs' : Fs} (h : fs'.leaf q = fs.leaf q) :
    Differs X q fe fs' ↔ Differs X q fe fs := by
  have hfile : ∀ d, fs'.get q = some (.file d) ↔ fs.get q = some (.file d) := by
    intro d
    have hleaf : ∀ fs : Fs, fs.leaf q = some (.file d) ↔ fs.get q = some (.file d) := by
      intro fs
      rw [fs.leaf_eq_some]
      simp
    rw [← hleaf, ← hleaf, h]
  unfold Differs
  simp only [hfile]

/-- **What the write pass makes of the modes.**  A destination that only one
entry has is left alone where the content was there already, and gets the mode
of the entry where it was not. -/
theorem writePass_modes {T : Path} {m m' : Machine} {files : List FileEntry} {outs : List Bytes}
    (hready : Ready st T m.fs) (h : writePass X st st.root files m = .ok outs m') {q : Path}
    {fe₀ : FileEntry} (honly : ∀ fe ∈ files, destination st.root fe = some q → fe = fe₀) :
    (¬ Differs X q fe₀ m.fs → m'.fs.leaf q = m.fs.leaf q) ∧
      (Differs X q fe₀ m.fs → (∃ fe ∈ files, destination st.root fe = some q) →
        ∀ d, m'.fs.leaf q = some (.file d) → d.mode = fe₀.mode % 512) := by
  induction files using List.reverseRecOn generalizing outs m' with
  | nil =>
      cases h
      refine ⟨fun _ => rfl, ?_⟩
      intro _ hsome
      obtain ⟨fe, hfe, _⟩ := hsome
      exact absurd hfe List.not_mem_nil
  | append_singleton files fe ih =>
      obtain ⟨outs₁, outs₂, u, hfirst, hlast, rfl⟩ := collect_append_eq_ok.mp h
      obtain ⟨hsame, hset⟩ := ih hfirst fun f hf => honly f (List.mem_append_left _ hf)
      obtain ⟨hrest, hgrows, _⟩ := writePass_ok hready hfirst
      obtain ⟨out, t, hwrite, htail⟩ := bind_eq_ok.mp hlast
      cases htail
      obtain ⟨rel, hwritten, hcases⟩ := writeEntry_ok (hready.grow hgrows) hwrite
      have hdest : destination st.root fe = some (st.root ++ rel.comps) := by
        simp only [destination, hwritten.path]
      by_cases hq : q = st.root ++ rel.comps
      · have hfe : fe = fe₀ := honly fe (by simp) (by rw [hdest, hq])
        rw [← hq, hfe] at hcases
        constructor
        · intro hnot
          have hu := hsame hnot
          rcases hcases with ⟨_, hleaf⟩ | ⟨hdiffers, _⟩
          · exact (hleaf q).trans hu
          · exact absurd ((differs_congr hu).mp hdiffers) hnot
        · intro hdiffers _ d hd
          rcases hcases with ⟨hnot, hleaf⟩ | ⟨_, hmode⟩
          · -- an earlier entry has put the content there
            rw [hleaf q] at hd
            apply hset hdiffers _ d hd
            by_contra hnone
            have hat := hrest q
            rw [lastAt_eq_none.mpr fun f hf hfq => hnone ⟨f, hf, hfq⟩] at hat
            exact hnot ((differs_congr hat).mpr hdiffers)
          · exact hmode d (m'.fs.leaf_eq_some.mp hd).1
      · have hleaf := hwritten.leaves q hq
        refine ⟨fun hnot => hleaf.trans (hsame hnot), ?_⟩
        intro hdiffers hsome d hd
        rw [hleaf] at hd
        apply hset hdiffers _ d hd
        obtain ⟨f, hf, hfq⟩ := hsome
        rcases List.mem_append.mp hf with hf | hf
        · exact ⟨f, hf, hfq⟩
        · rw [List.mem_singleton.mp hf, hdest] at hfq
          exact absurd (Option.some.inj hfq).symm hq

/-! ## The removal pass -/

/-- The files and links at which the removal pass is aimed: those it gets to and
the manifest does not know. -/
def Extra (root : Path) (m : Manifest) (keepExtra : Bool) (fs : Fs) (q : Path) : Prop :=
  keepExtra = false ∧ ∃ rel, q = root ++ rel ∧ removable m rel (fs.get q) = true ∧
    fs.Listed root rel

/-- What may be removed is a file or a link. -/
theorem removable_leaf {m : Manifest} {rel : Path} {node : Option Node}
    (h : removable m rel node = true) : ∃ x, node = some x ∧ x ≠ .dir := by
  unfold removable at h
  split at h
  · exact ⟨_, rfl, by simp⟩
  · exact ⟨_, rfl, by simp⟩
  · cases h

/-- After part of the removal walk the extras among `done` are gone. -/
structure Removed (root : Path) (m : Manifest) (keepExtra : Bool) (done : List Path)
    (s s' : Machine) : Prop where
  gone : ∀ rel ∈ done, Extra root m keepExtra s.fs (root ++ rel) → s'.fs.get (root ++ rel) = none
  kept : ∀ q, ¬ Extra root m keepExtra s.fs q → s'.fs.get q = s.fs.get q
  less : ∀ q, s'.fs.get q = s.fs.get q ∨ s'.fs.get q = none
  ran : Machine.Ran (fun e => ∃ rel, e = .unlink (root ++ rel) ∧
    removable m rel (s.fs.get (root ++ rel)) = true) s s'

/-- One step of the removal pass takes away what may go, and cannot fail. -/
theorem removeExtra_after {root : Path} {m : Manifest} {keepExtra : Bool} {done : List Path}
    {s t : Machine} (h : Removed root m keepExtra done s t) {rel : Path}
    (hlisted : s.fs.Listed root rel) :
    After (removeExtra root m keepExtra rel t)
      (fun _ t' => Removed root m keepExtra (done ++ [rel]) s t') (fun _ _ => False) := by
  have hsame : removable m rel (t.fs.get (root ++ rel)) = true →
      t.fs.get (root ++ rel) = s.fs.get (root ++ rel) := by
    intro hrem
    obtain ⟨x, hx, _⟩ := removable_leaf hrem
    rcases h.less (root ++ rel) with heq | hnone
    · exact heq
    · rw [hnone] at hx; cases hx
  -- nothing has to go, or it is gone already
  have hstay : (Extra root m keepExtra s.fs (root ++ rel) → t.fs.get (root ++ rel) = none) →
      Removed root m keepExtra (done ++ [rel]) s t := by
    intro hgone
    refine ⟨?_, h.kept, h.less, h.ran⟩
    intro r hr hextra
    rcases List.mem_append.mp hr with hr | hr
    · exact h.gone r hr hextra
    · rw [List.mem_singleton.mp hr] at hextra ⊢
      exact hgone hextra
  unfold removeExtra
  rw [bind_apply, look_get]
  simp only
  by_cases hrem : removable m rel (t.fs.get (root ++ rel)) = true
  · rw [if_pos hrem]
    cases keepExtra with
    | true =>
        apply hstay
        intro hextra
        cases hextra.1
    | false =>
        obtain ⟨x, hx, hxdir⟩ := removable_leaf hrem
        have hleaf : t.fs.leaf (root ++ rel) = some x := t.fs.leaf_eq_some.mpr ⟨hx, hxdir⟩
        have hget := Fs.get_exec_unlink hleaf
        have hextra : Extra root m false s.fs (root ++ rel) :=
          ⟨rfl, rel, rfl, hsame hrem ▸ hrem, hlisted⟩
        simp only [Bool.false_eq_true, if_false]
        rw [bind_apply, io, removeFile_of_leaf hleaf]
        refine ⟨?_, ?_, ?_, ?_⟩
        · intro r hr hr'
          refine (hget _).trans ?_
          by_cases heq : root ++ r = root ++ rel
          · rw [if_pos heq]
          · rw [if_neg heq]
            rcases List.mem_append.mp hr with hr | hr
            · exact h.gone r hr hr'
            · exact absurd (by rw [List.mem_singleton.mp hr]) heq
        · intro q hq
          have hne : q ≠ root ++ rel := by
            intro heq
            exact hq (heq ▸ hextra)
          exact ((hget q).trans (if_neg hne)).trans (h.kept q hq)
        · intro q
          by_cases heq : q = root ++ rel
          · exact Or.inr ((hget q).trans (if_pos heq))
          · have hkeep := (hget q).trans (if_neg heq)
            rcases h.less q with hs | hs
            · exact Or.inl (hkeep.trans hs)
            · exact Or.inr (hkeep.trans hs)
        · exact h.ran.trans (Machine.Ran.perform ⟨rel, rfl, hsame hrem ▸ hrem⟩)
  · rw [if_neg hrem]
    apply hstay
    intro hextra
    obtain ⟨_, r, hr, hrem', _⟩ := hextra
    have hr' : rel = r := List.append_cancel_left hr
    subst hr'
    rcases h.less (root ++ rel) with heq | hnone
    · rw [heq] at hrem
      exact absurd hrem' hrem
    · exact hnone

/-- **The removal pass takes away exactly the extras and cannot fail.** -/
theorem removalPass_after {root : Path} {m : Manifest} {keepExtra : Bool} {s : Machine} :
    After (removalPass root m keepExtra s)
      (fun _ s' => (∀ q, Extra root m keepExtra s.fs q → s'.fs.get q = none) ∧
        (∀ q, ¬ Extra root m keepExtra s.fs q → s'.fs.get q = s.fs.get q) ∧
        Machine.Ran (fun e => ∃ rel, e = .unlink (root ++ rel) ∧
          removable m rel (s.fs.get (root ++ rel)) = true) s s')
      (fun _ _ => False) := by
  have hstart : Removed root m keepExtra [] s s :=
    ⟨by simp, fun _ _ => rfl, fun _ => Or.inl rfl, Machine.Ran.refl _⟩
  unfold removalPass
  rw [bind_apply, look_get]
  have hloop := After.collectAcc (I := fun done _ => Removed root m keepExtra done s) (r := [])
    hstart fun rel (hrel : rel ∈ s.fs.walk root) _ _ _ h =>
      removeExtra_after h (Fs.mem_walk.mp hrel).2
  apply hloop.mono
  · intro outs s' h
    refine ⟨?_, h.kept, h.ran⟩
    intro q hq
    have hextra := hq
    obtain ⟨_, rel, rfl, hrem, hlisted⟩ := hq
    obtain ⟨x, hx, _⟩ := removable_leaf hrem
    apply h.gone rel _ hextra
    rw [List.nil_append]
    exact Fs.mem_walk.mpr ⟨⟨x, hx⟩, hlisted⟩
  · intro e s' h
    exact h

/-! ## Pruning -/

/-- Only directories went from `fs` to `fs'`. -/
def LessDirs (fs fs' : Fs) : Prop :=
  ∀ q, fs'.get q = fs.get q ∨ (fs.get q = some .dir ∧ fs'.get q = none)

/-- Removing empty directories leaves the files and links. -/
theorem LessDirs.leaf_eq {fs fs' : Fs} (h : LessDirs fs fs') (q : Path) :
    fs'.leaf q = fs.leaf q := by
  unfold Fs.leaf
  rcases h q with heq | ⟨hdir, hnone⟩
  · rw [heq]
  · rw [hdir, hnone]

/-- **Pruning removes directories of the worktree outside excluded paths.** -/
theorem pruneEmptyDirs_after {root : Path} {s : Machine} :
    After (pruneEmptyDirs root s)
      (fun _ s' => LessDirs s.fs s'.fs ∧
        Machine.Ran (fun e => ∃ rel, e = .rmdir (root ++ rel) ∧ rel ≠ [] ∧
          excluded rel = false) s s')
      (fun _ _ => False) := by
  unfold pruneEmptyDirs
  rw [bind_apply, look_get]
  apply After.forEach ⟨fun _ => Or.inl rfl, Machine.Ran.refl _⟩
  intro rel hrel t h
  obtain ⟨hless, hran⟩ := h
  obtain ⟨hdir, hne⟩ : s.fs.get (root ++ rel) = some .dir ∧ rel ≠ [] := by
    have hmem := (List.mem_filter.mp (List.mem_insertionSort _ |>.mp hrel)).2
    simpa using hmem
  by_cases hex : excluded rel = true
  · rw [if_pos hex]
    exact ⟨hless, hran⟩
  · rw [if_neg hex]
    unfold ignore
    cases hrm : removeDir (root ++ rel) t.toWorld with
    | error e w =>
        have hw := removeDir_error hrm
        subst hw
        exact ⟨hless, hran⟩
    | ok u w =>
        obtain ⟨r, hres, hrdir, hbare, rfl⟩ := removeDir_ok hrm
        -- what was a directory above it is none or still one, but no link
        have hnolink : ∀ pre, pre <+: root ++ rel → pre ≠ root ++ rel →
            ∀ t', t.fs.get pre ≠ some (.symlink t') := by
          intro pre hpre _ t' ht
          have hpredir := Fs.dir_of_prefix hdir hpre
          rcases hless pre with heq | ⟨_, hnone⟩
          · rw [heq, hpredir] at ht; cases ht
          · rw [hnone] at ht; cases ht
        have hr : r = root ++ rel :=
          Fs.resolve_eq_self (fun n hn => s.fs.valid_of_get hdir hn) hnolink (by simp) hres
        subst hr
        have hget := Fs.get_exec_rmdir hrdir hbare
        refine ⟨?_, hran.trans (Machine.Ran.perform ⟨rel, rfl, hne, by simpa using hex⟩)⟩
        intro q
        by_cases hq : q = root ++ rel
        · exact Or.inr ⟨hq ▸ hdir, (hget q).trans (if_pos hq)⟩
        · have hkeep := (hget q).trans (if_neg hq)
          rcases hless q with hs | ⟨hd, hs⟩
          · exact Or.inl (hkeep.trans hs)
          · exact Or.inr ⟨hd, hkeep.trans hs⟩

/-! ## The whole revert -/

variable (X st)

/-- The state `m₁` in which the passes start, and where the temporary
directory is then. -/
structure Started (mf : Manifest) (m m₁ : Machine) (T : Path) : Prop where
  checked : precheck X st mf m.fs = .ok ()
  made : io (createDirAll (tmpDir st)) m = .ok () m₁
  leads : m₁.fs.resolve false (tmpDir st ++ [dot]) = .ok T

variable {X st}

/-- Starting a revert makes directories only. -/
theorem Started.madeSome {mf : Manifest} {m m₁ : Machine} {T : Path}
    (h : Started X st mf m m₁ T) : MadeSome m.toWorld m₁.toWorld := by
  obtain ⟨w, hw, rfl⟩ := io_eq_ok.mp h.made
  have hmade := createDirAll_made (p := tmpDir st) (w := m.toWorld)
  rw [hw] at hmade
  exact hmade.1

theorem Started.ready {mf : Manifest} {m m₁ : Machine} {T : Path}
    (h : Started X st mf m m₁ T) (hroot : m.fs.get st.root = some .dir) : Ready st T m₁.fs :=
  ⟨h.madeSome.newDirs.sub hroot, m₁.fs, h.leads, Fs.Grows.refl _⟩

/-- An event of one of the entries of a manifest, in the state in which its
turn came. -/
def EntriesEvent (X : Crates) (st : Store) (mf : Manifest) (m : Machine) (e : Event) : Prop :=
  ∃ m₁ T pre fe post outs s, Started X st mf m m₁ T ∧ mf.files = pre ++ fe :: post ∧
    writePass X st st.root pre m₁ = .ok outs s ∧ s.pid = m.pid ∧ EntryEvent X st T fe s e

/-- An event of the removal pass or of the pruning: below the root, and not on
an excluded path. -/
def CleanEvent (root : Path) (e : Event) : Prop :=
  ∃ rel, rel ≠ [] ∧ excluded rel = false ∧ (e = .unlink (root ++ rel) ∨ e = .rmdir (root ++ rel))

theorem not_excluded_of_removable {m : Manifest} {rel : Path} {node : Option Node}
    (h : removable m rel node = true) : excluded rel = false := by
  unfold removable at h
  split at h <;> simp_all

/-- What `apply` does after the write pass. -/
def tidy (root : Path) (m : Manifest) (keepExtra : Bool) (restored : List Bytes) :
    Sys RevertReport := do
  let extras ← removalPass root m keepExtra
  pruneEmptyDirs root
  pure { restored := restored
         removed := (extras.filter fun e => e.2 = true).map Prod.fst
         skippedExtra := (extras.filter fun e => e.2 = false).map Prod.fst }

/-- `apply`, from the state in which the temporary directory was made. -/
theorem apply_of_made {m m₁ : Machine} {mf : Manifest} {keepExtra : Bool} {u : Unit}
    (hcheck : precheck X st mf m.fs = .ok ()) (hmade : io (createDirAll (tmpDir st)) m = .ok u m₁) :
    apply X st st.root mf keepExtra m =
      (writePass X st st.root mf.files >>= tidy st.root mf keepExtra) m₁ := by
  unfold apply
  rw [bind_apply, look_eq_ok.mpr ⟨hcheck, rfl⟩]
  simp only
  rw [bind_apply, hmade]
  rfl

/-- The passes after the writing clean up, and cannot fail. -/
theorem tidy_after {m : Machine} {mf : Manifest} {keepExtra : Bool} {restored : List Bytes}
    (hroot : m.fs.get st.root = some .dir) :
    After (tidy st.root mf keepExtra restored m)
      (fun _ m' => Machine.Ran (CleanEvent st.root) m m') (fun _ _ => False) := by
  have hextras : After (removalPass st.root mf keepExtra m) _ _ := removalPass_after
  apply After.bind hextras
  intro extras m₁ h₁
  have hran₁ : Machine.Ran (CleanEvent st.root) m m₁ := by
    apply h₁.2.2.mono
    intro e he
    obtain ⟨rel, rfl, hrem⟩ := he
    refine ⟨rel, ?_, not_excluded_of_removable hrem, Or.inl rfl⟩
    -- only files and links are removed, so never the root
    intro hnil
    obtain ⟨x, hx, hxdir⟩ := removable_leaf hrem
    rw [hnil, List.append_nil, hroot] at hx
    exact hxdir (Option.some.inj hx).symm
  apply After.bind pruneEmptyDirs_after
  intro _ m₂ h₂
  refine hran₁.trans (h₂.2.mono ?_)
  intro e he
  obtain ⟨rel, rfl, hne, hex⟩ := he
  exact ⟨rel, hne, hex, Or.inr rfl⟩

/-- **Every event of a revert**, whatever its outcome, belongs to the making of
the temporary directory, to an entry, or to the cleaning up. -/
theorem apply_after {m : Machine} {mf : Manifest} {keepExtra : Bool} {P : Event → Prop}
    (hroot : m.fs.get st.root = some .dir)
    (hmake : After (createDirAll (tmpDir st) m.toWorld)
      (fun _ w => World.Extends P m.toWorld w) (fun _ w => World.Extends P m.toWorld w))
    (hentries : ∀ e, EntriesEvent X st mf m e → P e)
    (hclean : ∀ e, CleanEvent st.root e → P e) :
    After (apply X st st.root mf keepExtra m)
      (fun _ m' => Machine.Ran P m m') (fun _ m' => Machine.Ran P m m') := by
  unfold apply
  rw [bind_apply]
  cases hcheck : look (precheck X st mf) m with
  | error e m₀ =>
      obtain ⟨_, rfl⟩ := look_eq_error.mp hcheck
      exact Machine.Ran.refl _
  | ok u m₀ =>
      obtain ⟨hchecked, rfl⟩ := look_eq_ok.mp hcheck
      simp only
      rw [bind_apply]
      cases hmade : io (createDirAll (tmpDir st)) m₀ with
      | error e m₁ =>
          obtain ⟨no, w, hw, _, rfl⟩ := io_eq_error.mp hmade
          rw [hw] at hmake
          exact Machine.Ran.of_world hmake
      | ok u₁ m₁ =>
          have hleads := createDirAll_made (p := tmpDir st) (w := m₀.toWorld)
          obtain ⟨w, hw, rfl⟩ := io_eq_ok.mp hmade
          rw [hw] at hmake hleads
          obtain ⟨_, T, hT⟩ := hleads
          have hstart : Started X st mf m₀ { m₀ with toWorld := w } T := ⟨hchecked, hmade, hT⟩
          have hran₁ : Machine.Ran P m₀ { m₀ with toWorld := w } := Machine.Ran.of_world hmake
          have hready := hstart.ready hroot
          have hwrite : After (writePass X st st.root mf.files { m₀ with toWorld := w }) _ _ :=
            writePass_after (P := P) hready
            fun pre fe post outs s e hfiles hpre _ hpid he => hentries e
              ⟨_, T, pre, fe, post, outs, s, hstart, hfiles, hpre, hpid.trans hran₁.pid, he⟩
          simp only
          apply After.bind (hwrite.mono (fun _ _ h => h) fun _ _ h => hran₁.trans h.2)
          intro restored m₂ h₂
          apply (tidy_after (h₂.1.dirs _ hready.root)).mono
          · intro _ m₃ h₃
            exact (hran₁.trans h₂.2).trans (h₃.mono hclean)
          · intro _ _ h
            exact h.elim

/-- A revert seals no directory, whatever its outcome. -/
theorem apply_sealed {m : Machine} {mf : Manifest} {keepExtra : Bool}
    (hroot : m.fs.get st.root = some .dir) :
    After (apply X st st.root mf keepExtra m) (fun _ m' => m'.fs.sealed ⊆ m.fs.sealed)
      (fun _ m' => m'.fs.sealed ⊆ m.fs.sealed) := by
  have hmake : After (createDirAll (tmpDir st) m.toWorld)
      (fun _ w => World.Extends (fun _ => True) m.toWorld w)
      (fun _ w => World.Extends (fun _ => True) m.toWorld w) :=
    createDirAll_made.mono (fun _ _ h => h.1.events.mono fun _ _ => trivial)
      fun _ _ h => h.events.mono fun _ _ => trivial
  exact (apply_after hroot hmake (fun _ _ => trivial) fun _ _ => trivial).mono
    (fun _ _ h => h.events.sealed_subset) fun _ _ h => h.events.sealed_subset

/-- A revert that succeeds is a write pass, after which what is extra goes. -/
theorem apply_passes {m m' : Machine} {mf : Manifest} {keepExtra : Bool} {r : RevertReport}
    (hroot : m.fs.get st.root = some .dir)
    (h : apply X st st.root mf keepExtra m = .ok r m') :
    precheck X st mf m.fs = .ok () ∧ m'.fs.get st.root = some .dir ∧
      ∃ T m₁ outs m₂, Ready st T m₁.fs ∧ (∀ q, m₁.fs.leaf q = m.fs.leaf q) ∧
        writePass X st st.root mf.files m₁ = .ok outs m₂ ∧ m₂.fs.sealed = m.fs.sealed ∧
        (∀ q, Extra st.root mf keepExtra m₂.fs q → m'.fs.leaf q = none) ∧
        (∀ q, ¬ Extra st.root mf keepExtra m₂.fs q → m'.fs.leaf q = m₂.fs.leaf q) ∧
        ∀ rel x, m'.fs.get (st.root ++ rel) = some x →
          (m'.fs.Listed st.root rel ↔ m.fs.Listed st.root rel) := by
  obtain ⟨_, m₀, hcheck, hrest⟩ := bind_eq_ok.mp h
  obtain ⟨hchecked, rfl⟩ := look_eq_ok.mp hcheck
  obtain ⟨_, m₁, hmade, hpasses⟩ := bind_eq_ok.mp hrest
  obtain ⟨restored, m₂, hwrite, h⟩ := bind_eq_ok.mp hpasses
  obtain ⟨extras, m₃, hremove, h⟩ := bind_eq_ok.mp h
  obtain ⟨_, m₄, hprune, h⟩ := bind_eq_ok.mp h
  cases h
  obtain ⟨w, hw, rfl⟩ := io_eq_ok.mp hmade
  have hmadeSome := createDirAll_made (p := tmpDir st) (w := m₀.toWorld)
  rw [hw] at hmadeSome
  obtain ⟨hnew, T, hT⟩ := hmadeSome
  have hready := Started.ready ⟨hchecked, hmade, hT⟩ hroot
  obtain ⟨_, hgrows, _⟩ := writePass_ok hready hwrite
  have hsealed : m₂.fs.sealed = m₀.fs.sealed :=
    (writePass_sealed hready hwrite).trans hnew.sealed_eq
  have hextras : After (removalPass st.root mf keepExtra m₂) _ _ := removalPass_after
  rw [hremove] at hextras
  have hpruned : After (pruneEmptyDirs st.root m₃) _ _ := pruneEmptyDirs_after
  rw [hprune] at hpruned
  have hleaf := hpruned.1.leaf_eq
  have hroot₃ : m₃.fs.get st.root = some .dir := by
    rw [hextras.2.1, hgrows.dirs _ hready.root]
    intro hextra
    obtain ⟨_, rel, _, hrem, _⟩ := hextra
    obtain ⟨x, hx, hxdir⟩ := removable_leaf hrem
    rw [hgrows.dirs _ hready.root] at hx
    exact hxdir (Option.some.inj hx).symm
  have hroot₄ : m'.fs.get st.root = some .dir := by
    rw [hpruned.2.events.get_eq, hroot₃]
    intro e he hmem
    obtain ⟨rel, rfl, hne, _⟩ := he
    exact hne (List.append_right_eq_self.mp (List.mem_singleton.mp hmem).symm)
  refine ⟨hchecked, hroot₄, T, _, restored, m₂, hready, hnew.newDirs.leaf_eq, hwrite, hsealed,
    ?_, ?_, ?_⟩
  · intro q hq
    rw [hleaf]
    unfold Fs.leaf
    rw [hextras.1 q hq]
  · intro q hq
    rw [hleaf]
    unfold Fs.leaf
    rw [hextras.2.1 q hq]
  · intro rel x hx
    have hremoved : Machine.Ran (fun e => ∃ p, e = .unlink p ∨ e = .rmdir p) m₂ m' :=
      (hextras.2.2.mono fun _ he => ⟨_, Or.inl he.choose_spec.1⟩).trans
        (hpruned.2.mono fun _ he => ⟨_, Or.inr he.choose_spec.1⟩)
    rw [hremoved.events.listed_iff (fun _ he => he) hx, Fs.listed_congr hsealed]

/-- **A revert that succeeds restores every entry and removes what is extra.**
`fs₂` is the tree between the two, in which the same directories are sealed; the
root is still there, and walks get as far as before. -/
theorem apply_ok {m m' : Machine} {mf : Manifest} {keepExtra : Bool} {r : RevertReport}
    (hroot : m.fs.get st.root = some .dir)
    (h : apply X st st.root mf keepExtra m = .ok r m') :
    precheck X st mf m.fs = .ok () ∧ m'.fs.get st.root = some .dir ∧
      (∀ fe ∈ mf.files, ∃ rel, sanitizeRel fe.path = .ok rel ∧ rel.dirOnly = false) ∧
      ∃ fs₂, Restored X st.root mf.files m.fs fs₂ ∧ fs₂.sealed = m.fs.sealed ∧
        (∀ q, Extra st.root mf keepExtra fs₂ q → m'.fs.leaf q = none) ∧
        (∀ q, ¬ Extra st.root mf keepExtra fs₂ q → m'.fs.leaf q = fs₂.leaf q) ∧
        ∀ rel x, m'.fs.get (st.root ++ rel) = some x →
          (m'.fs.Listed st.root rel ↔ m.fs.Listed st.root rel) := by
  obtain ⟨hchecked, hroot', T, m₁, outs, m₂, hready, hstart, hwrite, hsealed, hgone, hkept,
    hlisted⟩ := apply_passes hroot h
  obtain ⟨hrestored, _, hplain⟩ := writePass_ok hready hwrite
  refine ⟨hchecked, hroot', hplain, m₂.fs, ?_, hsealed, hgone, hkept, hlisted⟩
  intro q
  rw [← hstart q]
  exact hrestored q

/-- The modes that such a revert leaves, at a destination that only one entry
has and that is not extra. -/
theorem apply_modes {m m' : Machine} {mf : Manifest} {keepExtra : Bool} {r : RevertReport}
    (hroot : m.fs.get st.root = some .dir)
    (h : apply X st st.root mf keepExtra m = .ok r m') {q : Path} {fe : FileEntry}
    (hfe : fe ∈ mf.files) (hdest : destination st.root fe = some q)
    (honly : ∀ f ∈ mf.files, destination st.root f = some q → f = fe)
    {x : Node} (hx : m'.fs.leaf q = some x) :
    (¬ Differs X q fe m.fs → m'.fs.leaf q = m.fs.leaf q) ∧
      (Differs X q fe m.fs → ∀ d, m'.fs.leaf q = some (.file d) → d.mode = fe.mode % 512) := by
  obtain ⟨_, _, T, m₁, outs, m₂, hready, hstart, hwrite, _, hgone, hkept, _⟩ := apply_passes hroot h
  obtain ⟨hsame, hset⟩ := writePass_modes hready hwrite honly
  have hnot : ¬ Extra st.root mf keepExtra m₂.fs q := by
    intro hextra
    rw [hgone q hextra] at hx
    cases hx
  rw [hkept q hnot, ← hstart q, ← differs_congr (hstart q)]
  exact ⟨hsame, fun hdiffers => hset hdiffers ⟨fe, hfe, hdest⟩⟩

end Revert

end Respawn
