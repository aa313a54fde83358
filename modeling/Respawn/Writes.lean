import Respawn.Store

/-!
# What the store writes

Files of the fabric, and of the worktree on a revert, are replaced by way of a
temporary file: it is made, filled and renamed (`Opened`, `Opened.rename`).
For `atomicWrite` and `putBlob` this gives what a success leaves, `Wrote`, and
what a failure can leave, `Missed`: missing directories and one temporary file.

`Store.Real` is a fabric as `init` makes it, without links; there a path of the
fabric is where it says.
-/

namespace Respawn

open ByteStr FileTree StateLogic

/-- The events between two states of a process. -/
def Machine.since (m m' : Machine) : List Event := m'.trace.drop m.trace.length

/-- The process went from `m` to `m'` and made only events with `P`. -/
structure Machine.Ran (P : Event → Prop) (m m' : Machine) : Prop where
  events : World.Extends P m.toWorld m'.toWorld
  pid : m'.pid = m.pid
  keychain : m'.keychain = m.keychain

namespace Machine.Ran

variable {P Q : Event → Prop} {m m' m'' : Machine}

theorem refl (m : Machine) : Machine.Ran P m m := ⟨World.Extends.refl _, rfl, rfl⟩

theorem trans (h : Machine.Ran P m m') (h' : Machine.Ran P m' m'') : Machine.Ran P m m'' :=
  ⟨h.events.trans h'.events, h'.pid.trans h.pid, h'.keychain.trans h.keychain⟩

theorem mono (h : Machine.Ran P m m') (hPQ : ∀ e, P e → Q e) : Machine.Ran Q m m' :=
  ⟨h.events.mono hPQ, h.pid, h.keychain⟩

theorem of_world {w : World} (h : World.Extends P m.toWorld w) :
    Machine.Ran P m { m with toWorld := w } := ⟨h, rfl, rfl⟩

theorem perform {e : Event} (he : P e) :
    Machine.Ran P m { m with toWorld := m.toWorld.perform e } :=
  of_world (World.Extends.perform he)

/-- The events of a run are those the trace gained. -/
theorem trace_eq (h : Machine.Ran P m m') : m'.trace = m.trace ++ m.since m' := by
  obtain ⟨_, evs, ht, _⟩ := h.events
  simp [Machine.since, ht]

theorem since (h : Machine.Ran P m m') {e : Event} (he : e ∈ m.since m') : P e := by
  obtain ⟨_, evs, ht, _, hP⟩ := h.events
  rw [Machine.since, ht, List.drop_left] at he
  exact hP e he

theorem since_trans (h : Machine.Ran P m m') (h' : Machine.Ran Q m' m'') :
    m.since m'' = m.since m' ++ m'.since m'' := by
  rw [Machine.since, h'.trace_eq, h.trace_eq, List.append_assoc, List.drop_left]

end Machine.Ran

/-! ## Temporary files -/

/-- From `m` to `m'` the file at `f` went from `old` to `old ++ data`. -/
structure Appended (f : Path) (old data : Bytes) (m m' : Machine) : Prop where
  file : ∃ d, m'.fs.get f = some (.file d) ∧ d.bytes = old ++ data
  frame : ∀ q, q ≠ f → m'.fs.get q = m.fs.get q
  ran : Machine.Ran (fun e => ∃ data t, e = .write f data t) m m'

/-- Data appended to a file stands behind what was appended before. -/
theorem Appended.write {f : Path} {old acc : Bytes} {m m' : Machine}
    (h : Appended f old acc m m') (data : Bytes) :
    Appended f old (acc ++ data) m
      { m' with toWorld := m'.toWorld.perform (.write f data m'.clock) } := by
  obtain ⟨d, hd, hbytes⟩ := h.file
  have hget : ∀ q, (m'.fs.exec (.write f data m'.clock)).get q = _ := fun q =>
    Fs.get_modifyFile hd _ q
  refine ⟨⟨_, (hget f).trans (if_pos rfl), ?_⟩, ?_, ?_⟩
  · simp [hbytes]
  · intro q hq
    exact ((hget q).trans (if_neg hq)).trans (h.frame q hq)
  · exact h.ran.trans (Machine.Ran.perform ⟨data, m'.clock, rfl⟩)

/-- An event on the temporary file `p`. -/
def TmpEvent (p : Path) (e : Event) : Prop :=
  (∃ mode t, e = .create p mode t) ∨ (∃ data t, e = .write p data t) ∨ e = .unlink p

theorem TmpEvent.paths {p q : Path} {e : Event} (h : TmpEvent p e) (hq : q ∈ e.paths) : q = p := by
  rcases h with ⟨mode, t, rfl⟩ | ⟨data, t, rfl⟩ | rfl <;> simpa [Event.paths] using hq

/-- The temporary file `tmp` was made between `m` and `m'` and holds `data`. -/
structure Opened (tmp : Path) (data : Bytes) (m m' : Machine) : Prop where
  absent : m.fs.get tmp = none
  file : ∃ d, m'.fs.get tmp = some (.file d) ∧ d.bytes = data
  frame : ∀ q, q ≠ tmp → m'.fs.get q = m.fs.get q
  ran : Machine.Ran (TmpEvent tmp) m m'

/-- With a temporary file opened the tree has grown. -/
theorem Opened.grows {tmp : Path} {data : Bytes} {m m' : Machine} (h : Opened tmp data m m') :
    Fs.Grows m.fs m'.fs := by
  apply Fs.grows_of_files
  intro q
  by_cases hq : q = tmp
  · obtain ⟨d, hd, _⟩ := h.file
    subst hq
    exact Or.inr ⟨by simp [h.absent], d, hd⟩
  · exact Or.inl (h.frame q hq)

/-- A temporary file that was opened may be written on. -/
theorem Opened.append {tmp : Path} {old data : Bytes} {m m₁ m₂ : Machine}
    (h : Opened tmp old m m₁) (h' : Appended tmp old data m₁ m₂) :
    Opened tmp (old ++ data) m m₂ := by
  refine ⟨h.absent, h'.file, ?_, ?_⟩
  · intro q hq
    exact (h'.frame q hq).trans (h.frame q hq)
  · exact h.ran.trans (h'.ran.mono fun e he => Or.inr (Or.inl he))

/-- Making a temporary file. -/
theorem opened_of_createNew {p f : Path} {mode : Nat} {m : Machine} {w : World}
    (h : createNew p mode m.toWorld = .ok f w) :
    m.fs.resolve false p = .ok f ∧ Opened f [] m { m with toWorld := w } := by
  obtain ⟨hres, hnone, rfl⟩ := createNew_ok h
  have hget : ∀ q, (m.fs.exec (.create f mode m.clock)).get q = _ := fun q =>
    Fs.get_put (Fs.room_of_reached (Fs.resolve_reached hres) hnone) _ q
  refine ⟨hres, hnone, ⟨_, (hget _).trans (if_pos rfl), rfl⟩, ?_, ?_⟩
  · intro q hq
    exact (hget q).trans (if_neg hq)
  · exact Machine.Ran.perform (Or.inl ⟨_, _, rfl⟩)

/-- Renaming it puts its content at `dest` and leaves the rest as it was. -/
theorem Opened.rename {tmp dest : Path} {data : Bytes} {m m' : Machine}
    (h : Opened tmp data m m') (hroom : m'.fs.Room dest) :
    (∃ d, (m'.fs.exec (.rename tmp dest)).get dest = some (.file d) ∧ d.bytes = data) ∧
      ∀ q, q ≠ dest → (m'.fs.exec (.rename tmp dest)).get q = m.fs.get q := by
  obtain ⟨d, hd, hbytes⟩ := h.file
  have hget := Fs.get_exec_rename (m'.fs.leaf_eq_some.mpr ⟨hd, by simp⟩) hroom
  refine ⟨⟨d, (hget dest).trans (if_pos rfl), hbytes⟩, ?_⟩
  intro q hq
  refine (hget q).trans ((if_neg hq).trans ?_)
  by_cases htmp : q = tmp
  · rw [if_pos htmp, htmp, h.absent]
  · rw [if_neg htmp, h.frame q htmp]

/-! ## Atomic writes -/

/-- The node at `q` is what it was, or a directory above `p` was made there. -/
def KeptUpTo (p : Path) (fs fs' : Fs) (q : Path) : Prop :=
  fs'.get q = fs.get q ∨ (q <+: p ∧ fs.get q = none ∧ fs'.get q = some .dir)

/-- What is kept step by step is kept. -/
theorem KeptUpTo.trans {p q : Path} {fs₁ fs₂ fs₃ : Fs} (h : KeptUpTo p fs₁ fs₂ q)
    (h' : KeptUpTo p fs₂ fs₃ q) : KeptUpTo p fs₁ fs₃ q := by
  rcases h with heq | ⟨hpre, hnone, hdir⟩
  · rcases h' with heq' | ⟨hpre, hnone, hdir⟩
    · exact Or.inl (heq'.trans heq)
    · exact Or.inr ⟨hpre, heq ▸ hnone, hdir⟩
  · rcases h' with heq' | ⟨_, hnone', _⟩
    · exact Or.inr ⟨hpre, hnone, heq'.trans hdir⟩
    · rw [hdir] at hnone'; cases hnone'

/-- The file at `path` was replaced by `data`; missing directories above it
were made and nothing else changed. -/
structure Wrote (path : Path) (data : Bytes) (m m' : Machine) : Prop where
  file : ∃ d, m'.fs.get path = some (.file d) ∧ d.bytes = data
  frame : ∀ q, q ≠ path → KeptUpTo path.dropLast m.fs m'.fs q
  ran : Machine.Ran (fun _ => True) m m'

/-- A write of `path` that failed: at most directories above it and one
temporary file beside it, named with `tag`, were made. -/
structure Missed (tag : Bytes) (path : Path) (m m' : Machine) : Prop where
  frame : ∀ q, KeptUpTo path.dropLast m.fs m'.fs q ∨
    ((∃ n, q = path.dropLast ++ [tmpName m.pid n tag]) ∧
      m.fs.get q = none ∧ ∃ d, m'.fs.get q = some (.file d))
  ran : Machine.Ran (fun _ => True) m m'

theorem missed_of_madeDirs {tag : Bytes} {path : Path} {m : Machine} {w : World}
    (h : MadeDirs path.dropLast m.toWorld w) : Missed tag path m { m with toWorld := w } :=
  ⟨fun q => Or.inl (h.adds q), Machine.Ran.of_world (h.events.mono fun _ _ => trivial)⟩

/-- Directories that were made first do not matter. -/
theorem Wrote.after_dirs {path : Path} {data : Bytes} {m m₁ m' : Machine}
    (h₁ : Fs.AddsDirs path.dropLast m.fs m₁.fs) (hran : Machine.Ran (fun _ => True) m m₁)
    (h : Wrote path data m₁ m') : Wrote path data m m' :=
  ⟨h.file, fun q hq => KeptUpTo.trans (h₁ q) (h.frame q hq), hran.trans h.ran⟩

/-- A replacement that missed after directories were made missed. -/
theorem Missed.after_dirs {tag : Bytes} {path : Path} {m m₁ m' : Machine}
    (h₁ : Fs.AddsDirs path.dropLast m.fs m₁.fs) (hran : Machine.Ran (fun _ => True) m m₁)
    (h : Missed tag path m₁ m') : Missed tag path m m' := by
  refine ⟨?_, hran.trans h.ran⟩
  intro q
  rcases h.frame q with hkept | ⟨⟨n, hq⟩, hnone, hfile⟩
  · exact Or.inl (KeptUpTo.trans (h₁ q) hkept)
  · rcases h₁ q with heq | ⟨_, _, hdir⟩
    · exact Or.inr ⟨⟨n, by rw [hq, hran.pid]⟩, heq ▸ hnone, hfile⟩
    · rw [hdir] at hnone; cases hnone

namespace Store

/-- The name of the temporary file beside a path is valid. -/
theorem validName_fileTag {path : Path} (hnames : ∀ n ∈ path, ValidName n) (pid k : Nat) :
    ValidName (tmpName pid k (fileTag path)) := by
  unfold fileTag
  cases hlast : path.getLast? with
  | none => exact validName_tmpName (by decide) (by decide)
  | some n =>
      obtain ⟨_, _, _, hslash, hnul⟩ := hnames n (List.mem_of_getLast? hlast)
      simp only
      split
      · exact validName_tmpName hslash hnul
      · exact validName_tmpName (by decide) (by decide)

/-- Writing through the temporary file `name` beside `path`. -/
theorem writeVia_after {path : Path} {name : Name} {mode : Nat} {data : Bytes} {m : Machine}
    (hne : path ≠ [])
    (hnames : ∀ n ∈ path, ValidName n) (hname : ValidName name)
    (hparent : m.fs.get path.dropLast = some .dir) :
    After ((do
        let f ← io (createNew (path.dropLast ++ [name]) mode)
        io (writeAll f data)
        io (rename (path.dropLast ++ [name]) path) : Sys Unit) m)
      (fun _ m' => Wrote path data m m')
      (fun _ m' => Machine.Ran (fun _ => True) m m' ∧ ∀ q, m'.fs.get q = m.fs.get q ∨
        (q = path.dropLast ++ [name] ∧ m.fs.get q = none ∧ ∃ d, m'.fs.get q = some (.file d))) := by
  have hnames' : ∀ n ∈ path.dropLast ++ [name], ValidName n := by
    intro n hn
    rcases List.mem_append.mp hn with hn | hn
    · exact hnames n (List.mem_of_mem_dropLast hn)
    · rw [List.mem_singleton.mp hn]
      exact hname
  rw [bind_apply]
  cases hcreate : createNew (path.dropLast ++ [name]) mode m.toWorld with
  | error e w =>
      have hw := createNew_error hcreate
      subst hw
      simp only [io, hcreate]
      exact ⟨Machine.Ran.refl _, fun _ => Or.inl rfl⟩
  | ok f w =>
      obtain ⟨hres, hopened⟩ := opened_of_createNew hcreate
      have hf : f = path.dropLast ++ [name] :=
        Except.ok.inj (hres.symm.trans (Fs.resolve_of_parent hnames' (by simp)
          (by rw [List.dropLast_concat]; exact hparent) (by simp)))
      subst hf
      obtain ⟨old, hold, hempty⟩ := hopened.file
      have hfull : Opened (path.dropLast ++ [name]) data m
          { m with toWorld := w.perform (.write (path.dropLast ++ [name]) data w.clock) } := by
        have hstart : Appended (path.dropLast ++ [name]) [] [] { m with toWorld := w }
            { m with toWorld := w } :=
          ⟨⟨old, hold, hempty⟩, fun _ _ => rfl, Machine.Ran.refl _⟩
        exact hopened.append (hstart.write data)
      have hgrows := hfull.grows
      simp only [io, hcreate, bind_apply, writeAll]
      cases hren : rename (path.dropLast ++ [name]) path
          (w.perform (.write (path.dropLast ++ [name]) data w.clock)) with
      | error e w' =>
          have hw' := rename_error hren
          subst hw'
          refine ⟨hfull.ran.mono fun _ _ => trivial, ?_⟩
          intro q
          by_cases hq : q = path.dropLast ++ [name]
          · obtain ⟨d, hd, _⟩ := hfull.file
            right
            rw [hq]
            exact ⟨rfl, hfull.absent, d, hd⟩
          · exact Or.inl (hfull.frame q hq)
      | ok u w' =>
          obtain ⟨p', q', x, hp', hq', _, hdir, rfl⟩ := rename_ok hren
          have hparent' := hgrows.dirs _ hparent
          have hp : p' = path.dropLast ++ [name] :=
            Except.ok.inj (hp'.symm.trans (Fs.resolve_of_parent hnames' (by simp)
              (by rw [List.dropLast_concat]; exact hparent') (by simp)))
          have hq : q' = path :=
            Except.ok.inj (hq'.symm.trans (Fs.resolve_of_parent hnames hne hparent' (by simp)))
          subst hp hq
          have hroom : (w.perform (.write (q'.dropLast ++ [name]) data w.clock)).fs.Room q' :=
            ⟨hne, hparent', hdir, fun n hn => hnames n (List.mem_of_getLast? hn)⟩
          obtain ⟨hfile, hframe⟩ := hfull.rename hroom
          refine ⟨hfile, fun q hq => Or.inl (hframe q hq), ?_⟩
          exact (hfull.ran.mono fun _ _ => trivial).trans (Machine.Ran.perform trivial)

/-- Making the directory first, and a temporary file of this mode. -/
theorem replaceVia_after {tag : Bytes} {path : Path} {mode : Nat} {data : Bytes} {m : Machine}
    (hne : path ≠ []) (hnames : ∀ n ∈ path, ValidName n)
    (htag : ∀ n, ValidName (tmpName m.pid n tag))
    (hlinks : ∀ pre, pre <+: path.dropLast → ∀ t, m.fs.get pre ≠ some (.symlink t)) :
    After ((do
        io (createDirAll path.dropLast)
        let tmp ← tmpPath path.dropLast tag
        let f ← io (createNew tmp mode)
        io (writeAll f data)
        io (rename tmp path) : Sys Unit) m)
      (fun _ m' => Wrote path data m m')
      (fun _ m' => Missed tag path m m') := by
  have hmade := createDirAll_after (fun n hn => hnames n (List.mem_of_mem_dropLast hn)) hlinks
  apply After.bind (P := fun _ m₁ => m₁.fs.get path.dropLast = some .dir ∧
    Fs.AddsDirs path.dropLast m.fs m₁.fs ∧ Machine.Ran (fun _ => True) m m₁)
  · apply after_io
    apply hmade.mono
    · intro _ w h
      exact ⟨h.2, h.1.adds, Machine.Ran.of_world (h.1.events.mono fun _ _ => trivial)⟩
    · intro _ w h
      exact missed_of_madeDirs h
  · intro _ m₁ h₁
    obtain ⟨hparent, hadds, hran⟩ := h₁
    apply After.bind (P := fun tmp m₂ => m₂.fs = m₁.fs ∧ Machine.Ran (fun _ => True) m₁ m₂ ∧
      tmp = path.dropLast ++ [tmpName m₁.pid m₁.tmpCounter tag])
    · exact ⟨rfl, ⟨World.Extends.refl _, rfl, rfl⟩, rfl⟩
    · intro tmp m₂ h₂
      obtain ⟨hfs, hran₂, rfl⟩ := h₂
      have hadds₂ : Fs.AddsDirs path.dropLast m.fs m₂.fs := hfs ▸ hadds
      apply (writeVia_after (m := m₂) hne hnames (hran.pid ▸ htag m₁.tmpCounter)
        (hfs ▸ hparent)).mono
      · intro _ m' h
        exact h.after_dirs hadds₂ (hran.trans hran₂)
      · intro _ m' h
        apply Missed.after_dirs hadds₂ (hran.trans hran₂)
        refine ⟨?_, h.1⟩
        intro q
        rcases h.2 q with heq | ⟨hq, hnone, hfile⟩
        · exact Or.inl (Or.inl heq)
        · exact Or.inr ⟨⟨m₁.tmpCounter, by rw [hq, hran₂.pid]⟩, hnone, hfile⟩

/-- **An atomic write replaces the file or misses it.** -/
theorem replaceFile_after {tag : Bytes} {path : Path} {data : Bytes} {m : Machine}
    (hne : path ≠ []) (hnames : ∀ n ∈ path, ValidName n)
    (htag : ∀ n, ValidName (tmpName m.pid n tag))
    (hlinks : ∀ pre, pre <+: path.dropLast → ∀ t, m.fs.get pre ≠ some (.symlink t)) :
    After (replaceFile tag path data m) (fun _ m' => Wrote path data m m')
      (fun _ m' => Missed tag path m m') :=
  replaceVia_after hne hnames htag hlinks

/-- An atomic write replaces the file, or leaves it. -/
theorem atomicWrite_after {path : Path} {data : Bytes} {m : Machine} (hne : path ≠ [])
    (hnames : ∀ n ∈ path, ValidName n)
    (hlinks : ∀ pre, pre <+: path.dropLast → ∀ t, m.fs.get pre ≠ some (.symlink t)) :
    After (atomicWrite path data m) (fun _ m' => Wrote path data m m')
      (fun _ m' => Missed (fileTag path) path m m') :=
  replaceFile_after hne hnames (validName_fileTag hnames m.pid) hlinks

/-- **Appending a line** to a file under a directory. -/
theorem appendLine_ok {path : Path} {text line : Bytes} {m : Machine}
    (hnames : ∀ n ∈ path, ValidName n) (hne : path ≠ [])
    (hdir : m.fs.get path.dropLast = some .dir) (htext : m.fs.HasText path text) :
    ∃ w d, appendLine path line m = .ok () { m with toWorld := w } ∧
      w.fs.get path = some (.file d) ∧ d.bytes = text ++ (line ++ [10]) ∧
      (∀ q, q ≠ path → w.fs.get q = m.fs.get q) ∧ w.clock = m.clock := by
  obtain ⟨w₁, d₁, hopen, hget₁, hbytes₁, hframe₁, hclock₁⟩ :=
    openAppend_of_dir hnames hne hdir htext
  obtain ⟨w₂, d₂, hwrite, hget₂, hbytes₂, hframe₂, hclock₂⟩ := writeAll_of_file hget₁ line
  obtain ⟨w₃, d₃, hend, hget₃, hbytes₃, hframe₃, hclock₃⟩ := writeAll_of_file hget₂ [10]
  refine ⟨w₃, d₃, ?_, hget₃, ?_, ?_, hclock₃.trans (hclock₂.trans hclock₁)⟩
  · simp only [appendLine, bind_apply, io, hopen, hwrite, hend]
  · rw [hbytes₃, hbytes₂, hbytes₁, List.append_assoc]
  · intro q hq
    exact (hframe₃ q hq).trans ((hframe₂ q hq).trans (hframe₁ q hq))

/-! ## A fabric of real directories -/

/-- The fabric is there and no link stands in it. -/
structure Real (st : Store) (fs : Fs) : Prop where
  dir : fs.get st.fabricDir = some .dir
  links : ∀ q t, st.fabricDir <+: q → fs.get q ≠ some (.symlink t)

/-- Is the node a link? -/
def isLink : Option Node → Bool
  | some (.symlink _) => true
  | _ => false

/-- A tree whose nodes are no links has no links. -/
theorem noLink_of_keys {fs : Fs} (h : ∀ k ∈ fs.nodes.keys, isLink (fs.get k) = false)
    (q : Path) (t : Bytes) : fs.get q ≠ some (.symlink t) := by
  intro ht
  have hlink := h q (fs.mem_keys ht)
  rw [ht] at hlink
  cases hlink

namespace Real

variable {st : Store} {fs : Fs}

/-- It is enough to look at the nodes there are. -/
theorem of_keys (hdir : fs.get st.fabricDir = some .dir)
    (h : ∀ k ∈ fs.nodes.keys, st.fabricDir <+: k → isLink (fs.get k) = false) : st.Real fs := by
  refine ⟨hdir, ?_⟩
  intro q t hq ht
  have hlink := h q (fs.mem_keys ht) hq
  rw [ht] at hlink
  cases hlink

/-- No link stands on the way to a path of the fabric, or at it. -/
theorem noLink (h : st.Real fs) {p pre : Path} (hp : st.fabricDir <+: p) (hpre : pre <+: p)
    (t : Bytes) : fs.get pre ≠ some (.symlink t) := by
  rcases List.prefix_or_prefix_of_prefix hpre hp with habove | hin
  · by_cases heq : pre = st.fabricDir
    · rw [heq, h.dir]
      simp
    · rw [fs.get_of_prefix h.dir habove heq]
      simp
  · exact h.links pre t hin

theorem resolve_eq (h : st.Real fs) {follow : Bool} {p q : Path} (hp : st.fabricDir <+: p)
    (hnames : ∀ n ∈ p, ValidName n) (hres : fs.resolve follow p = .ok q) : q = p :=
  Fs.resolve_eq_self hnames (fun _ hpre _ => h.noLink hp hpre)
    (fun _ => h.noLink hp (List.prefix_refl _)) hres

/-- A path of the fabric exists when a node is there. -/
theorem exists_iff (h : st.Real fs) {p : Path} (hp : st.fabricDir <+: p)
    (hnames : ∀ n ∈ p, ValidName n) : fs.exists p = true ↔ fs.get p ≠ none := by
  unfold Fs.exists
  constructor
  · intro hex hnone
    unfold Fs.metadata at hex
    cases hres : fs.resolve true p with
    | error e =>
        rw [hres] at hex
        cases hex
    | ok q =>
        rw [hres, h.resolve_eq hp hnames hres] at hex
        simp only [hnone] at hex
        cases hex
  · intro hsome
    obtain ⟨x, hx⟩ := Option.ne_none_iff_exists'.mp hsome
    rw [Fs.metadata_of_get hx]
    · rfl
    · intro t ht
      rw [ht] at hx
      exact h.links p t hp hx

/-- Reading a path of the fabric reads the file there. -/
theorem read_eq_ok (h : st.Real fs) {p : Path} {data : Bytes} (hp : st.fabricDir <+: p)
    (hnames : ∀ n ∈ p, ValidName n) :
    fs.read p = .ok data ↔ ∃ d, fs.get p = some (.file d) ∧ d.bytes = data := by
  constructor
  · intro hread
    unfold Fs.read Fs.metadata at hread
    cases hres : fs.resolve true p with
    | error e =>
        rw [hres] at hread
        cases hread
    | ok q =>
        rw [hres, h.resolve_eq hp hnames hres] at hread
        cases hx : fs.get p with
        | none =>
            simp only [hx] at hread
            cases hread
        | some x =>
            simp only [hx] at hread
            cases x with
            | file d => exact ⟨d, rfl, Except.ok.inj hread⟩
            | dir => cases hread
            | symlink t => cases hread
  · intro hfile
    obtain ⟨d, hd, hbytes⟩ := hfile
    rw [Fs.read_of_get hd, hbytes]

/-- Reading it as text yields the file's bytes, if they are text. -/
theorem readToString_eq_ok (h : st.Real fs) {p : Path} {s : Bytes} (hp : st.fabricDir <+: p)
    (hnames : ∀ n ∈ p, ValidName n) : fs.readToString p = .ok s ↔
      ∃ d, fs.get p = some (.file d) ∧ validUtf8 d.bytes = true ∧ d.bytes = s := by
  unfold Fs.readToString
  constructor
  · intro hread
    cases hbytes : fs.read p with
    | error e =>
        rw [hbytes] at hread
        cases hread
    | ok bytes =>
        rw [hbytes] at hread
        obtain ⟨d, hd, rfl⟩ := (h.read_eq_ok hp hnames).mp hbytes
        simp only at hread
        split at hread
        case _ hutf8 => exact ⟨d, hd, hutf8, Except.ok.inj hread⟩
        · cases hread
  · intro hfile
    obtain ⟨d, hd, hutf8, rfl⟩ := hfile
    rw [Fs.read_of_get hd]
    simp only [hutf8, if_true]

/-- A fabric stays real while its directories and links stay. -/
theorem of_frame {m m' : Machine} (h : st.Real m.fs)
    (hframe : ∀ q, (∃ p, KeptUpTo p m.fs m'.fs q) ∨
      (∃ d, m'.fs.get q = some (.file d)) ∧ q ≠ st.fabricDir) : st.Real m'.fs := by
  refine ⟨?_, ?_⟩
  · rcases hframe st.fabricDir with ⟨p, heq | ⟨_, hnone, _⟩⟩ | ⟨_, hne⟩
    · rw [heq, h.dir]
    · rw [h.dir] at hnone; cases hnone
    · exact absurd rfl hne
  · intro q t hq ht
    rcases hframe q with ⟨p, heq | ⟨_, _, hdir⟩⟩ | ⟨⟨d, hd⟩, _⟩
    · exact h.links q t hq (heq ▸ ht)
    · rw [hdir] at ht; cases ht
    · rw [hd] at ht; cases ht

/-- Writing under the fabric keeps it real. -/
theorem wrote {path : Path} {data : Bytes} {m m' : Machine} (h : st.Real m.fs)
    (hpath : st.fabricDir <+: path.dropLast) (hne : path ≠ []) (hw : Wrote path data m m') :
    st.Real m'.fs := by
  apply h.of_frame
  intro q
  by_cases hq : q = path
  · obtain ⟨d, hd, _⟩ := hw.file
    right
    refine ⟨⟨d, by rw [hq, hd]⟩, ?_⟩
    intro heq
    have hlen := hpath.length_le
    have hpos := List.length_pos_iff.mpr hne
    rw [← heq, hq, List.length_dropLast] at hlen
    omega
  · exact Or.inl ⟨_, hw.frame q hq⟩

/-- A replacement inside it that missed leaves it real. -/
theorem missed {tag : Bytes} {path : Path} {m m' : Machine} (h : st.Real m.fs)
    (hpath : st.fabricDir <+: path.dropLast) (hm : Missed tag path m m') : st.Real m'.fs := by
  apply h.of_frame
  intro q
  rcases hm.frame q with hkept | ⟨⟨n, hq⟩, _, hfile⟩
  · exact Or.inl ⟨_, hkept⟩
  · right
    refine ⟨hfile, ?_⟩
    intro heq
    have hlen := hpath.length_le
    rw [← heq, hq, List.length_append, List.length_singleton] at hlen
    omega

end Real

/-- From `fs` to `fs'` the fabric stayed real and only nodes with `S` changed. -/
structure Touched (st : Store) (S : Path → Prop) (fs fs' : Fs) : Prop where
  real : st.Real fs'
  frame : ∀ q, ¬ S q → fs'.get q = fs.get q

namespace Touched

variable {st : Store} {S S' : Path → Prop} {fs fs' fs'' : Fs}

theorem refl (h : st.Real fs) : st.Touched S fs fs := ⟨h, fun _ _ => rfl⟩

theorem trans (h : st.Touched S fs fs') (h' : st.Touched S fs' fs'') : st.Touched S fs fs'' :=
  ⟨h'.real, fun q hq => (h'.frame q hq).trans (h.frame q hq)⟩

theorem mono (h : st.Touched S fs fs') (hS : ∀ q, S q → S' q) : st.Touched S' fs fs' :=
  ⟨h.real, fun q hq => h.frame q fun hs => hq (hS q hs)⟩

/-- The directories that a write makes lie in the fabric. -/
theorem of_keptUpTo {path q : Path} (hreal : st.Real fs) (hpath : st.fabricDir <+: path)
    (hS : ∀ q, st.fabricDir <+: q → q ≠ st.fabricDir → q <+: path → S q)
    (h : KeptUpTo path fs fs' q) (hq : ¬ S q) : fs'.get q = fs.get q := by
  rcases h with heq | ⟨hpre, hnone, _⟩
  · exact heq
  · have hne : ∀ pre, pre <+: st.fabricDir → q ≠ pre := by
      intro pre hup heq
      rw [heq, Fs.dir_of_prefix hreal.dir hup] at hnone
      cases hnone
    rcases List.prefix_or_prefix_of_prefix hpre hpath with habove | hbelow
    · exact absurd rfl (hne q habove)
    · exact absurd (hS q hbelow (hne _ (List.prefix_refl _)) hpre) hq

/-- Writing a file of the fabric touches it and the directories above it. -/
theorem of_wrote {path : Path} {data : Bytes} {m m' : Machine} (hreal : st.Real m.fs)
    (hpath : st.fabricDir <+: path.dropLast) (hne : path ≠ [])
    (hS : ∀ q, st.fabricDir <+: q → q ≠ st.fabricDir → q <+: path → S q)
    (h : Wrote path data m m') : st.Touched S m.fs m'.fs := by
  refine ⟨hreal.wrote hpath hne h, ?_⟩
  intro q hq
  have hup := List.dropLast_prefix path
  by_cases heq : q = path
  · refine absurd (hS q ?_ ?_ ?_) hq
    · exact heq ▸ hpath.trans hup
    · intro hdir
      have hlen := hpath.length_le
      have hpos := List.length_pos_iff.mpr hne
      rw [← hdir, heq, List.length_dropLast] at hlen
      omega
    · exact heq ▸ List.prefix_refl _
  · exact of_keptUpTo hreal hpath (fun q h₁ h₂ h₃ => hS q h₁ h₂ (h₃.trans hup)) (h.frame q heq) hq

/-- Missing it touches the directories above it and a temporary file. -/
theorem of_missed {tag : Bytes} {path : Path} {m m' : Machine} (hreal : st.Real m.fs)
    (hpath : st.fabricDir <+: path.dropLast)
    (hS : ∀ q, st.fabricDir <+: q → q ≠ st.fabricDir → q <+: path → S q)
    (htmp : ∀ n, S (path.dropLast ++ [tmpName m.pid n tag])) (h : Missed tag path m m') :
    st.Touched S m.fs m'.fs := by
  refine ⟨hreal.missed hpath h, ?_⟩
  intro q hq
  rcases h.frame q with hkept | ⟨⟨n, heq⟩, _, _⟩
  · exact of_keptUpTo hreal hpath
      (fun q h₁ h₂ h₃ => hS q h₁ h₂ (h₃.trans (List.dropLast_prefix path))) hkept hq
  · exact absurd (heq ▸ htmp n) hq

/-- Replacing a file of the fabric. -/
theorem of_replaceFile {tag : Bytes} {path : Path} {data : Bytes} {m : Machine}
    (hreal : st.Real m.fs) (hpath : st.fabricDir <+: path.dropLast) (hne : path ≠ [])
    (hnames : ∀ n ∈ path, ValidName n) (htag : ∀ n, ValidName (tmpName m.pid n tag))
    (hS : ∀ q, st.fabricDir <+: q → q ≠ st.fabricDir → q <+: path → S q)
    (htmp : ∀ n, S (path.dropLast ++ [tmpName m.pid n tag])) :
    After (replaceFile tag path data m) (fun _ m' => st.Touched S m.fs m'.fs)
      (fun _ m' => st.Touched S m.fs m'.fs) := by
  apply (replaceFile_after hne hnames htag fun pre hpre => hreal.noLink hpath hpre).mono
  · intro _ m' h
    exact of_wrote hreal hpath hne hS h
  · intro _ m' h
    exact of_missed hreal hpath hS htmp h

/-- Removing a file or a link. -/
theorem of_unlink {q : Path} {x : Node} (hreal : st.Real fs) (hx : fs.leaf q = some x)
    (hq : S q) : st.Touched S fs (fs.exec (.unlink q)) := by
  have hget := Fs.get_exec_unlink hx
  obtain ⟨hnode, hleaf⟩ := fs.leaf_eq_some.mp hx
  refine ⟨⟨?_, ?_⟩, ?_⟩
  · rw [hget, if_neg]
    · exact hreal.dir
    · intro heq
      rw [← heq, hreal.dir] at hnode
      exact hleaf (Option.some.inj hnode).symm
  · intro r t hr ht
    rw [hget] at ht
    split at ht
    · cases ht
    · exact hreal.links r t hr ht
  · intro r hr
    rw [hget, if_neg]
    intro heq
    exact hr (heq.symm ▸ hq)

/-- Removing a file touches the place it is at. -/
theorem of_removeFile {p : Path} {w : World} (hreal : st.Real w.fs)
    (hS : ∀ q, w.fs.resolve false p = .ok q → S q) :
    After (removeFile p w) (fun _ w' => st.Touched S w.fs w'.fs) (fun _ w' => w' = w) := by
  cases h : removeFile p w with
  | error e w' => exact removeFile_error h
  | ok u w' =>
      obtain ⟨q, x, hres, hleaf, rfl⟩ := removeFile_ok h
      exact of_unlink hreal hleaf (hS q hres)

/-- Making a directory of the fabric and those above it. -/
theorem of_createDirAll {p : Path} {w : World} (hreal : st.Real w.fs) (hp : st.fabricDir <+: p)
    (hnames : ∀ n ∈ p, ValidName n)
    (hS : ∀ q, st.fabricDir <+: q → q ≠ st.fabricDir → q <+: p → S q) :
    After (createDirAll p w) (fun _ w' => st.Touched S w.fs w'.fs)
      (fun _ w' => st.Touched S w.fs w'.fs) := by
  have hmade : ∀ w', MadeDirs p w w' → st.Touched S w.fs w'.fs := by
    intro w' h
    refine ⟨⟨?_, ?_⟩, fun q hq => of_keptUpTo hreal hp hS (h.adds q) hq⟩
    · exact h.adds.dir hreal.dir
    · intro q t hq ht
      exact hreal.links q t hq (h.adds.link ht)
  apply (createDirAll_after hnames fun pre hpre => hreal.noLink hp hpre).mono
  · intro _ w' h
    exact hmade w' h.1
  · intro _ w' h
    exact hmade w' h

/-- Placing a file. -/
theorem of_file {q : Path} {d : FileData} (hreal : st.Real fs) (hq : S q)
    (hdir : fs.get q ≠ some .dir)
    (hget : ∀ r, fs'.get r = if r = q then some (.file d) else fs.get r) : st.Touched S fs fs' := by
  refine ⟨⟨?_, ?_⟩, ?_⟩
  · rw [hget, if_neg]
    · exact hreal.dir
    · intro heq
      exact hdir (heq ▸ hreal.dir)
  · intro r t hr ht
    rw [hget] at ht
    split at ht
    · cases ht
    · exact hreal.links r t hr ht
  · intro r hr
    rw [hget, if_neg]
    intro heq
    exact hr (heq.symm ▸ hq)

/-- Writing a file of the fabric in place. -/
theorem of_writeFile {p : Path} {data : Bytes} {w : World} (hreal : st.Real w.fs)
    (hp : st.fabricDir <+: p) (hnames : ∀ n ∈ p, ValidName n) (hS : S p) :
    After (writeFile p data w) (fun _ w' => st.Touched S w.fs w'.fs)
      (fun _ w' => st.Touched S w.fs w'.fs) := by
  have hmodify : ∀ (fs : Fs) (d : FileData) (f : FileData → FileData), st.Real fs →
      fs.get p = some (.file d) →
      st.Touched S fs (fs.modifyFile p f) ∧ (fs.modifyFile p f).get p = some (.file (f d)) := by
    intro fs d f hreal hd
    have hget := Fs.get_modifyFile hd f
    refine ⟨of_file hreal hS (by simp [hd]) hget, ?_⟩
    rw [hget, if_pos rfl]
  unfold writeFile
  apply After.bind (P := fun q w' => q = p ∧ st.Touched S w.fs w'.fs ∧
    ∃ d, w'.fs.get p = some (.file d))
  · unfold openTruncate
    cases hopen : openAppend p w with
    | error e w' =>
        rw [openAppend_error hopen]
        exact refl hreal
    | ok q w' =>
        obtain ⟨hres, hcase⟩ := openAppend_ok hopen
        have hq := hreal.resolve_eq hp hnames hres
        subst hq
        have hbefore : st.Touched S w.fs w'.fs ∧ ∃ d, w'.fs.get q = some (.file d) := by
          rcases hcase with ⟨hd, rfl⟩ | ⟨hnone, rfl⟩
          · exact ⟨refl hreal, hd⟩
          · have hget : ∀ r, (w.fs.exec (.create q defaultMode w.clock)).get r = _ := fun r =>
              Fs.get_put (Fs.room_of_reached (Fs.resolve_reached hres) hnone) _ r
            exact ⟨of_file hreal hS (by simp [hnone]) hget, _, (hget q).trans (if_pos rfl)⟩
        obtain ⟨htouched, d, hd⟩ := hbefore
        obtain ⟨h₁, h₂⟩ := hmodify w'.fs d (fun d => { d with bytes := [], mtime := w'.clock })
          htouched.real hd
        exact ⟨rfl, htouched.trans h₁, _, h₂⟩
  · intro q w' h
    obtain ⟨rfl, htouched, d, hd⟩ := h
    exact htouched.trans (hmodify w'.fs d
      (fun d => { d with bytes := d.bytes ++ data, mtime := w'.clock }) htouched.real hd).1

/-- What a file of the fabric holds once it is written. -/
theorem writeFile_ok {p : Path} {data : Bytes} {w w' : World} {u : Unit} (hreal : st.Real w.fs)
    (hp : st.fabricDir <+: p) (hnames : ∀ n ∈ p, ValidName n)
    (h : writeFile p data w = .ok u w') :
    ∃ d, w'.fs.get p = some (.file d) ∧ d.bytes = data := by
  unfold writeFile at h
  rw [bind_apply] at h
  unfold openTruncate at h
  cases hopen : openAppend p w with
  | error e w₁ =>
      rw [hopen] at h
      cases h
  | ok q w₁ =>
      rw [hopen] at h
      obtain ⟨hres, hcase⟩ := openAppend_ok hopen
      have hq := hreal.resolve_eq hp hnames hres
      subst hq
      have hfile : ∃ d, w₁.fs.get q = some (.file d) := by
        rcases hcase with ⟨hd, rfl⟩ | ⟨hnone, rfl⟩
        · exact hd
        · have hget : ∀ r, (w.fs.exec (.create q defaultMode w.clock)).get r = _ := fun r =>
            Fs.get_put (Fs.room_of_reached (Fs.resolve_reached hres) hnone) _ r
          exact ⟨_, (hget q).trans (if_pos rfl)⟩
      obtain ⟨d, hd⟩ := hfile
      have hempty : (w₁.fs.exec (.truncate q w₁.clock)).get q = _ :=
        (Fs.get_modifyFile hd (fun d => { d with bytes := [], mtime := w₁.clock }) q).trans
          (if_pos rfl)
      cases h
      refine ⟨_, (Fs.get_modifyFile hempty _ q).trans (if_pos rfl), ?_⟩
      exact List.nil_append _

/-- Renaming a file of the fabric. -/
theorem of_rename {p q : Path} {w : World} (hreal : st.Real w.fs) (hp : st.fabricDir <+: p)
    (hq : st.fabricDir <+: q) (hpn : ∀ n ∈ p, ValidName n) (hqn : ∀ n ∈ q, ValidName n)
    (hSp : S p) (hSq : S q) :
    After (rename p q w) (fun _ w' => st.Touched S w.fs w'.fs) (fun _ w' => w' = w) := by
  cases h : rename p q w with
  | error e w' => exact rename_error h
  | ok u w' =>
      obtain ⟨p', q', x, hp', hq', hleaf, hdir, rfl⟩ := rename_ok h
      have hpp := hreal.resolve_eq hp hpn hp'
      have hqq := hreal.resolve_eq hq hqn hq'
      subst hpp hqq
      obtain ⟨hnode, hx⟩ := w.fs.leaf_eq_some.mp hleaf
      have hne : q' ≠ [] := by
        intro hnil
        rw [hnil, Fs.get_root] at hdir
        exact hdir rfl
      have hroom : w.fs.Room q' := by
        rcases Fs.resolve_reached hq' with ⟨y, hy⟩ | ⟨_, hpar, hvalid⟩
        · exact ⟨hne, w.fs.get_dropLast hy hne, hdir, fun n hn => hqn n (List.mem_of_getLast? hn)⟩
        · exact ⟨hne, hpar, hdir, hvalid⟩
      have hget := Fs.get_exec_rename hleaf hroom
      refine ⟨⟨?_, ?_⟩, ?_⟩
      · rw [World.perform_fs, hget, if_neg, if_neg]
        · exact hreal.dir
        · intro heq
          rw [← heq, hreal.dir] at hnode
          exact hx (Option.some.inj hnode).symm
        · intro heq
          exact hdir (heq ▸ hreal.dir)
      · intro r t hr ht
        rw [World.perform_fs, hget] at ht
        split at ht
        · rw [← hnode] at ht
          exact hreal.links p' t hp ht
        · split at ht
          · cases ht
          · exact hreal.links r t hr ht
      · intro r hr
        rw [World.perform_fs, hget, if_neg, if_neg]
        · intro heq
          exact hr (heq.symm ▸ hSp)
        · intro heq
          exact hr (heq.symm ▸ hSq)

/-- Appending a line to a file of the fabric touches that file, or nothing. -/
theorem of_appendLine {p : Path} {line : Bytes} {m : Machine} (hreal : st.Real m.fs)
    (hp : st.fabricDir <+: p) (hnames : ∀ n ∈ p, ValidName n) (hS : S p) :
    After (appendLine p line m) (fun _ m' => st.Touched S m.fs m'.fs)
      (fun _ m' => m'.fs = m.fs) := by
  unfold appendLine
  rw [bind_apply]
  cases hopen : openAppend p m.toWorld with
  | error e w =>
      simp only [io, hopen]
      rw [openAppend_error hopen]
      rfl
  | ok q w =>
      obtain ⟨hres, hcase⟩ := openAppend_ok hopen
      have hq := hreal.resolve_eq hp hnames hres
      subst hq
      have hmade : st.Touched S m.fs w.fs ∧ ∃ d, w.fs.get q = some (.file d) := by
        rcases hcase with ⟨hd, rfl⟩ | ⟨hnone, rfl⟩
        · exact ⟨refl hreal, hd⟩
        · have hget : ∀ r, (m.fs.exec (.create q defaultMode m.clock)).get r = _ := fun r =>
            Fs.get_put (Fs.room_of_reached (Fs.resolve_reached hres) hnone) _ r
          exact ⟨of_file hreal hS (by simp [hnone]) hget, _, (hget q).trans (if_pos rfl)⟩
      have hwrite : ∀ (fs : Fs) (d : FileData) (data : Bytes) (t : Int), st.Real fs →
          fs.get q = some (.file d) → st.Touched S fs (fs.exec (.write q data t)) ∧
            ∃ d, (fs.exec (.write q data t)).get q = some (.file d) := by
        intro fs d data t hreal hd
        have hget : ∀ r, (fs.exec (.write q data t)).get r = _ := fun r => Fs.get_modifyFile hd _ r
        exact ⟨of_file hreal hS (by simp [hd]) hget, _, (hget q).trans (if_pos rfl)⟩
      obtain ⟨htouched, d, hd⟩ := hmade
      obtain ⟨h₁, d₁, hd₁⟩ := hwrite w.fs d line w.clock htouched.real hd
      obtain ⟨h₂, _⟩ := hwrite _ d₁ [10] w.clock h₁.real hd₁
      simp only [io, hopen, bind_apply, writeAll]
      exact (htouched.trans h₁).trans h₂

end Touched

/-- **Storing a blob.**  It is there already, or it is written, or missed. -/
theorem putBlob_after {st : Store} {path : Path} {stored : Bytes} {m : Machine}
    (hreal : st.Real m.fs) (hpath : st.fabricDir <+: path.dropLast) (hne : path ≠ [])
    (hnames : ∀ n ∈ path, ValidName n) :
    After (putBlob path stored m)
      (fun _ m' => (m.fs.get path ≠ none ∧ m' = m) ∨
        (m.fs.get path = none ∧ Wrote path stored m m'))
      (fun _ m' => m.fs.get path = none ∧ Missed (fileTag path) path m m') := by
  have hpath' : st.fabricDir <+: path := hpath.trans (List.dropLast_prefix path)
  have hexists := hreal.exists_iff hpath' hnames
  have hlinks : ∀ pre, pre <+: path.dropLast → ∀ t, m.fs.get pre ≠ some (.symlink t) :=
    fun pre hpre => hreal.noLink hpath hpre
  unfold putBlob
  rw [bind_apply, look_get]
  simp only
  by_cases hpresent : m.fs.exists path = true
  · rw [if_pos hpresent]
    exact Or.inl ⟨hexists.mp hpresent, rfl⟩
  · have hnone : m.fs.get path = none := by
      by_contra hsome
      exact hpresent (hexists.mpr hsome)
    rw [if_neg hpresent]
    have hmade := createDirAll_after
      (fun n hn => hnames n (List.mem_of_mem_dropLast hn)) hlinks
    apply After.bind (P := fun _ m₁ => Fs.AddsDirs path.dropLast m.fs m₁.fs ∧
      Machine.Ran (fun _ => True) m m₁)
    · apply after_io
      apply hmade.mono
      · intro _ w h
        exact ⟨h.1.adds, Machine.Ran.of_world (h.1.events.mono fun _ _ => trivial)⟩
      · intro _ w h
        exact ⟨hnone, missed_of_madeDirs h⟩
    · intro _ m₁ h₁
      obtain ⟨hadds, hran⟩ := h₁
      apply (atomicWrite_after hne hnames
        fun pre hpre t ht => hlinks pre hpre t (hadds.link ht)).mono
      · intro _ m' h
        exact Or.inr ⟨hnone, h.after_dirs hadds hran⟩
      · intro _ m' h
        exact ⟨hnone, h.after_dirs hadds hran⟩

/-- A blob can be placed at `path`: nothing is there, only directories stand on
the way, and the next temporary name is free. -/
structure Vacant (fs : Fs) (pid n : Nat) (path : Path) : Prop where
  absent : fs.get path = none
  way : ∀ pre, pre <+: path.dropLast → fs.get pre = some .dir ∨ fs.get pre = none
  tmp : fs.get (path.dropLast ++ [tmpName pid n (fileTag path)]) = none

/-- The temporary file beside `path` is not on the way to it. -/
theorem Vacant.of_addsDirs {fs fs' : Fs} {pid n : Nat} {path : Path} (h : Vacant fs pid n path)
    (hadds : Fs.AddsDirs path.dropLast fs fs') (hne : path ≠ []) : Vacant fs' pid n path := by
  have hsame : ∀ q, ¬ q <+: path.dropLast → fs'.get q = fs.get q := by
    intro q hq
    rcases hadds q with heq | ⟨hpre, _, _⟩
    · exact heq
    · exact absurd hpre hq
  have hlong : ∀ q : Path, path.dropLast.length < q.length → ¬ q <+: path.dropLast := by
    intro q hq hpre
    have hle := hpre.length_le
    omega
  refine ⟨?_, ?_, ?_⟩
  · have hpos := List.length_pos_iff.mpr hne
    rw [hsame path (hlong path (by rw [List.length_dropLast]; omega)), h.absent]
  · intro pre hpre
    rcases hadds pre with heq | ⟨_, _, hdir⟩
    · rw [heq]
      exact h.way pre hpre
    · exact Or.inl hdir
  · rw [hsame _ (hlong _ (by simp)), h.tmp]

/-- Writing through a free temporary file beside a place without a directory
succeeds. -/
theorem writeVia_ok {path : Path} {name : Name} {data : Bytes} {m : Machine} (hne : path ≠ [])
    (hnames : ∀ n ∈ path, ValidName n) (hname : ValidName name)
    (hparent : m.fs.get path.dropLast = some .dir) (hnodir : m.fs.get path ≠ some .dir)
    (hfree : m.fs.get (path.dropLast ++ [name]) = none) :
    ∃ w, (do
        let f ← io (createNew (path.dropLast ++ [name]) defaultMode)
        io (writeAll f data)
        io (rename (path.dropLast ++ [name]) path) : Sys Unit) m =
          .ok () { m with toWorld := w } := by
  have hnames' : ∀ n ∈ path.dropLast ++ [name], ValidName n := by
    intro n hn
    rcases List.mem_append.mp hn with hn | hn
    · exact hnames n (List.mem_of_mem_dropLast hn)
    · rw [List.mem_singleton.mp hn]
      exact hname
  have hres : m.fs.resolve false (path.dropLast ++ [name]) = .ok (path.dropLast ++ [name]) :=
    Fs.resolve_of_parent hnames' (by simp) (by rw [List.dropLast_concat]; exact hparent) (by simp)
  generalize path.dropLast ++ [name] = tmp at hres hfree
  have hcreate : createNew tmp defaultMode m.toWorld =
      .ok tmp (m.toWorld.perform (.create tmp defaultMode m.clock)) := by
    simp [createNew, hres, hfree]
  obtain ⟨_, hopened⟩ := opened_of_createNew hcreate
  have hstart : Appended tmp [] []
      { m with toWorld := m.toWorld.perform (.create tmp defaultMode m.clock) }
      { m with toWorld := m.toWorld.perform (.create tmp defaultMode m.clock) } :=
    ⟨hopened.file, fun _ _ => rfl, Machine.Ran.refl _⟩
  have hfull : Opened tmp data m { m with toWorld := (m.toWorld.perform
      (.create tmp defaultMode m.clock)).perform (.write tmp data m.clock) } :=
    hopened.append (hstart.write data)
  obtain ⟨d, hd, _⟩ := hfull.file
  -- nothing but the temporary file is new
  have hdest : ∀ x, ((m.toWorld.perform (.create tmp defaultMode m.clock)).perform
      (.write tmp data m.clock)).fs.get path = some x → x ≠ .dir := by
    intro x hx
    by_cases htmp : path = tmp
    · rw [htmp] at hx
      cases hd.symm.trans hx
      simp
    · rw [hfull.frame path htmp] at hx
      rintro rfl
      exact hnodir hx
  have hren : ∃ w, rename tmp path ((m.toWorld.perform (.create tmp defaultMode m.clock)).perform
      (.write tmp data m.clock)) = .ok () w := by
    have hleaf := ((m.toWorld.perform (.create tmp defaultMode m.clock)).perform
      (.write tmp data m.clock)).fs.leaf_eq_some.mpr ⟨hd, by simp⟩
    have hto : Fs.resolve _ false path = .ok path :=
      Fs.resolve_of_parent hnames hne (hfull.grows.dirs _ hparent) (by simp)
    unfold rename
    simp only [Fs.resolve_of_get hd (by simp)]
    simp only [hto, hleaf]
    refine ⟨((m.toWorld.perform (.create tmp defaultMode m.clock)).perform
      (.write tmp data m.clock)).perform (.rename tmp path), ?_⟩
    rw [if_neg (by simp), if_neg fun hdir => hdest .dir hdir rfl]
  obtain ⟨w, hren⟩ := hren
  exact ⟨w, by simp only [bind_apply, io, hcreate, writeAll, World.perform_clock, hren]⟩

/-- Beside a free temporary name a file is replaced. -/
theorem replaceFile_of_free {tag : Bytes} {path : Path} {data : Bytes} {m : Machine}
    (hne : path ≠ []) (hnames : ∀ n ∈ path, ValidName n)
    (htag : ValidName (tmpName m.pid m.tmpCounter tag))
    (hparent : m.fs.get path.dropLast = some .dir) (hnodir : m.fs.get path ≠ some .dir)
    (hfree : m.fs.get (path.dropLast ++ [tmpName m.pid m.tmpCounter tag]) = none) :
    ∃ m', replaceFile tag path data m = .ok () m' ∧ m'.pid = m.pid ∧
      m'.tmpCounter = m.tmpCounter + 1 := by
  obtain ⟨w, hvia⟩ := @writeVia_ok path (tmpName m.pid m.tmpCounter tag) data
    { m with tmpCounter := m.tmpCounter + 1 } hne hnames htag hparent hnodir hfree
  refine ⟨{ m with toWorld := w, tmpCounter := m.tmpCounter + 1 }, ?_, rfl, rfl⟩
  unfold replaceFile
  simp only [bind_apply, io, createDirAll_of_dir hparent, tmpPath] at hvia ⊢
  exact hvia

/-- Where the place is vacant an atomic write succeeds. -/
theorem atomicWrite_of_vacant {path : Path} {data : Bytes} {m : Machine} (hne : path ≠ [])
    (hnames : ∀ n ∈ path, ValidName n) (hvacant : Vacant m.fs m.pid m.tmpCounter path) :
    ∃ m', atomicWrite path data m = .ok () m' ∧ m'.tmpCounter = m.tmpCounter + 1 := by
  have hdrop : ∀ n ∈ path.dropLast, ValidName n := fun n hn =>
    hnames n (List.mem_of_mem_dropLast hn)
  obtain ⟨w₁, hmake⟩ := createDirAll_ok hdrop hvacant.way
  have hmade := createDirAll_after (w := m.toWorld) hdrop fun pre hpre t ht => by
    rcases hvacant.way pre hpre with hdir | hnone
    · rw [hdir] at ht; cases ht
    · rw [hnone] at ht; cases ht
  rw [hmake] at hmade
  obtain ⟨hmade, hparent⟩ := hmade
  have hvacant₁ := hvacant.of_addsDirs hmade.adds hne
  obtain ⟨w, hvia⟩ := writeVia_ok
    (m := { m with toWorld := w₁, tmpCounter := m.tmpCounter + 1 }) hne hnames
    (validName_fileTag hnames m.pid m.tmpCounter) hparent (by rw [hvacant₁.absent]; simp)
    hvacant₁.tmp
  refine ⟨{ m with toWorld := w, tmpCounter := m.tmpCounter + 1 }, ?_, rfl⟩
  unfold atomicWrite replaceFile
  simp only [bind_apply, io, hmake, tmpPath] at hvia ⊢
  exact hvia

/-- A file that is replaced under a real directory had its temporary name free. -/
theorem tmp_free_of_replaceFile {tag : Bytes} {path : Path} {data : Bytes} {m m' : Machine}
    {u : Unit} (hnames : ∀ n ∈ path, ValidName n)
    (htag : ValidName (tmpName m.pid m.tmpCounter tag))
    (hparent : m.fs.get path.dropLast = some .dir) (h : replaceFile tag path data m = .ok u m') :
    m.fs.get (path.dropLast ++ [tmpName m.pid m.tmpCounter tag]) = none := by
  unfold replaceFile at h
  rw [bind_apply, io, createDirAll_of_dir hparent] at h
  simp only [bind_apply, tmpPath] at h
  cases hcreate : createNew (path.dropLast ++ [tmpName m.pid m.tmpCounter tag])
      defaultMode m.toWorld with
  | error e w =>
      simp only [io, hcreate] at h
      cases h
  | ok f w =>
      obtain ⟨hres, hnone, _⟩ := createNew_ok hcreate
      have hf : f = path.dropLast ++ [tmpName m.pid m.tmpCounter tag] := by
        apply Except.ok.inj (hres.symm.trans (Fs.resolve_of_parent _ (by simp)
          (by rw [List.dropLast_concat]; exact hparent) (by simp)))
        intro n hn
        rcases List.mem_append.mp hn with hn | hn
        · exact hnames n (List.mem_of_mem_dropLast hn)
        · rw [List.mem_singleton.mp hn]
          exact htag
      exact hf ▸ hnone

/-- **A new blob is stored only where its place is vacant**, … -/
theorem vacant_of_putBlob {st : Store} {path : Path} {stored : Bytes} {m m' : Machine} {u : Unit}
    (hreal : st.Real m.fs) (hpath : st.fabricDir <+: path.dropLast)
    (hnames : ∀ n ∈ path, ValidName n) (habsent : m.fs.get path = none)
    (hput : putBlob path stored m = .ok u m') : Vacant m.fs m.pid m.tmpCounter path := by
  have hmissing : ¬ m.fs.exists path = true := fun h =>
    (hreal.exists_iff (hpath.trans (List.dropLast_prefix path)) hnames).mp h habsent
  have hmade := createDirAll_after (w := m.toWorld)
    (fun n hn => hnames n (List.mem_of_mem_dropLast hn)) fun pre hpre => hreal.noLink hpath hpre
  unfold putBlob at hput
  rw [bind_apply, look_get] at hput
  simp only [if_neg hmissing, bind_apply, io] at hput
  cases hmake : createDirAll path.dropLast m.toWorld with
  | error e w =>
      simp only [hmake] at hput
      cases hput
  | ok u w₁ =>
      rw [hmake] at hmade
      simp only [hmake] at hput
      have hfree := tmp_free_of_replaceFile hnames (validName_fileTag hnames _ _)
        (m := { m with toWorld := w₁ }) hmade.2 hput
      have hback : ∀ q, w₁.fs.get q = none → m.fs.get q = none := by
        intro q hq
        rcases hmade.1.adds q with heq | ⟨_, _, hdir⟩
        · rw [← heq, hq]
        · rw [hdir] at hq
          cases hq
      refine ⟨habsent, ?_, hback _ hfree⟩
      intro pre hpre
      rcases hmade.1.adds pre with heq | ⟨_, hnone, _⟩
      · rw [← heq]
        exact Or.inl (w₁.fs.dir_of_prefix hmade.2 hpre)
      · exact Or.inr hnone

/-- … **and there it is stored.** -/
theorem putBlob_of_vacant {st : Store} {path : Path} {stored : Bytes} {m : Machine}
    (hreal : st.Real m.fs) (hpath : st.fabricDir <+: path.dropLast) (hne : path ≠ [])
    (hnames : ∀ n ∈ path, ValidName n) (hvacant : Vacant m.fs m.pid m.tmpCounter path) :
    ∃ m', putBlob path stored m = .ok () m' ∧ Wrote path stored m m' ∧
      m'.tmpCounter = m.tmpCounter + 1 := by
  have hdrop : ∀ n ∈ path.dropLast, ValidName n := fun n hn =>
    hnames n (List.mem_of_mem_dropLast hn)
  have hmissing : ¬ m.fs.exists path = true := fun h =>
    (hreal.exists_iff (hpath.trans (List.dropLast_prefix path)) hnames).mp h hvacant.absent
  have hmade := createDirAll_after (w := m.toWorld) hdrop fun pre hpre =>
    hreal.noLink hpath hpre
  obtain ⟨w₁, hmake⟩ := createDirAll_ok hdrop hvacant.way
  rw [hmake] at hmade
  obtain ⟨m', hwrite, hcounter⟩ : ∃ m', atomicWrite path stored { m with toWorld := w₁ } =
      .ok () m' ∧ m'.tmpCounter = m.tmpCounter + 1 :=
    atomicWrite_of_vacant hne hnames (hvacant.of_addsDirs hmade.1.adds hne)
  have hput : putBlob path stored m = .ok () m' := by
    unfold putBlob
    rw [bind_apply, look_get]
    simp only [if_neg hmissing, bind_apply, io, hmake]
    exact hwrite
  have hafter : After (putBlob path stored m) _ _ := putBlob_after hreal hpath hne hnames
  rw [hput] at hafter
  rcases hafter with ⟨hpresent, _⟩ | ⟨_, hwrote⟩
  · exact absurd hvacant.absent hpresent
  · exact ⟨m', hput, hwrote, hcounter⟩

/-! ## Sealed directories -/

section Sealed

variable {S : List Path}

/-- A system call that keeps permissions keeps them in a process. -/
theorem io_sealed {α : Type} {k : Kernel α}
    (hk : ∀ w, After (k w) (fun _ w' => w'.fs.sealed = w.fs.sealed)
      (fun _ w' => w'.fs.sealed = w.fs.sealed)) :
    Keeps (fun m : Machine => m.fs.sealed = S) (io k) := by
  intro m hm
  apply after_io
  exact (hk m.toWorld).mono (fun _ _ h => h.trans hm) fun _ _ h => h.trans hm

theorem createDirAll_sealed (path : Path) :
    Keeps (fun m : Machine => m.fs.sealed = S) (io (createDirAll path)) :=
  io_sealed fun _ => createDirAll_made.mono (fun _ _ h => h.1.sealed_eq) fun _ _ h => h.sealed_eq

/-- Replacing a file seals and unseals nothing. -/
theorem replaceFile_sealed (tag : Bytes) (path : Path) (data : Bytes) :
    Keeps (fun m : Machine => m.fs.sealed = S) (replaceFile tag path data) := by
  unfold replaceFile
  apply (createDirAll_sealed _).bind
  intro _
  apply Keeps.bind (fun _ h => h)
  intro tmp
  apply Keeps.bind
  · apply io_sealed
    intro w
    cases hcreate : createNew tmp defaultMode w with
    | error e w' => rw [createNew_error hcreate]; rfl
    | ok q w' =>
        obtain ⟨_, _, rfl⟩ := createNew_ok hcreate
        exact Fs.sealed_exec fun p hp => by cases hp
  intro q
  apply Keeps.bind
  · exact io_sealed fun w => Fs.sealed_exec fun p hp => by cases hp
  intro _
  apply io_sealed
  intro w
  cases hrename : rename tmp path w with
  | error e w' => rw [rename_error hrename]; rfl
  | ok u w' =>
      obtain ⟨_, _, _, _, _, _, _, rfl⟩ := rename_ok hrename
      exact Fs.sealed_exec fun p hp => by cases hp

/-- Storing a blob keeps permissions. -/
theorem putBlob_sealed (path : Path) (stored : Bytes) :
    Keeps (fun m : Machine => m.fs.sealed = S) (putBlob path stored) := by
  unfold putBlob
  apply Keeps.look.bind
  intro present
  apply Keeps.ite (Keeps.pure _)
  apply (createDirAll_sealed _).bind
  intro _
  exact replaceFile_sealed _ _ _

theorem putObject_sealed {X : Crates} {st : Store} (data : Bytes) :
    Keeps (fun m : Machine => m.fs.sealed = S) (st.putObject X data) :=
  (putBlob_sealed _ _).bind fun _ => Keeps.pure _

theorem putManifest_sealed {X : Crates} {st : Store} (data : Bytes) :
    Keeps (fun m : Machine => m.fs.sealed = S) (st.putManifest X data) :=
  (putBlob_sealed _ _).bind fun _ => Keeps.pure _

end Sealed

end Store

end Respawn
