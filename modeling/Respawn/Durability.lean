import Respawn.Crash
import Respawn.Delivery
import Respawn.Obstacles

/-!
# Crashes while the store is written

A snapshot and a pull write the store file by file, each through a temporary
file that is renamed.  A crash may come after any event; then the temporary
files and new directories so far are left over, and every other file is the old
one or the whole new one.  HEAD is written last.

* `createFromActor_crashSafe` — a crash anywhere in a snapshot loses nothing,
  and HEAD is the old one, or the new one with all that it refers to;
* `pull_crashSafe` — a crash anywhere in a pull loses nothing and leaves HEAD,
  whatever the peer sent.
-/

namespace Respawn

open ByteStr FileTree StateLogic

variable {X : Crates} {st : Store}

/-! ## Replacing a file -/

/-- A replacement of `path` by way of `tmp`, cut off anywhere. -/
def ViaTmp (tmp path : Path) (data : Bytes) (fs₀ fs : Fs) : Prop :=
  ∀ q, fs.get q = fs₀.get q ∨
    (q = tmp ∧ fs₀.get q = none ∧ ∃ d, fs.get q = some (.file d)) ∨
    (q = path ∧ ∃ d, fs.get q = some (.file d) ∧ d.bytes = data)

/-- A replacement of `path`, cut off anywhere: directories above it were made
perhaps and a temporary file beside it, and the file itself is the old one or the
whole new one. -/
def Replacing (tag : Bytes) (path : Path) (data : Bytes) (pid : Nat) (fs₀ fs : Fs) : Prop :=
  ∀ q, KeptUpTo path.dropLast fs₀ fs q ∨
    ((∃ n, q = path.dropLast ++ [tmpName pid n tag]) ∧ fs₀.get q = none ∧
      ∃ d, fs.get q = some (.file d)) ∨
    (q = path ∧ ∃ d, fs.get q = some (.file d) ∧ d.bytes = data)

/-- Making directories first changes nothing of a replacement. -/
theorem Replacing.after_dirs {tag : Bytes} {path : Path} {data : Bytes} {pid : Nat}
    {fs₀ fs₁ fs : Fs} (h₁ : ∀ q, KeptUpTo path.dropLast fs₀ fs₁ q)
    (h : Replacing tag path data pid fs₁ fs) : Replacing tag path data pid fs₀ fs := by
  intro q
  rcases h q with hkept | ⟨hq, hnone, hfile⟩ | hnew
  · exact Or.inl ((h₁ q).trans hkept)
  · rcases h₁ q with heq | ⟨_, _, hdir⟩
    · exact Or.inr (Or.inl ⟨hq, heq ▸ hnone, hfile⟩)
    · rw [hdir] at hnone
      cases hnone
  · exact Or.inr (Or.inr hnew)

/-- What is there stays, but for the file that is replaced. -/
theorem Replacing.present {tag : Bytes} {path : Path} {data : Bytes} {pid : Nat} {fs₀ fs : Fs}
    (h : Replacing tag path data pid fs₀ fs) {q : Path} (hq : fs₀.get q ≠ none) (hne : q ≠ path) :
    fs.get q = fs₀.get q := by
  rcases h q with (heq | ⟨_, hnone, _⟩) | ⟨_, hnone, _⟩ | ⟨heq, _⟩
  · exact heq
  · exact absurd hnone hq
  · exact absurd hnone hq
  · exact absurd heq hne

/-- An event of writing the file `p` where it stands. -/
def FileEvent (p : Path) (e : Event) : Prop :=
  (∃ mode t, e = .create p mode t) ∨ (∃ t, e = .truncate p t) ∨ ∃ data t, e = .write p data t

/-- Writing a file inside the fabric. -/
theorem writeFile_ran {p : Path} (data : Bytes) {m : Machine} (hreal : st.Real m.fs)
    (hp : st.fabricDir <+: p) (hnames : ∀ n ∈ p, ValidName n) :
    Machine.Ran (FileEvent p) m (finalState (io (writeFile p data) m)) := by
  unfold io writeFile
  rw [bind_apply]
  unfold openTruncate
  cases hopen : openAppend p m.toWorld with
  | error e w =>
      have hw := openAppend_error hopen
      subst hw
      exact Machine.Ran.refl m
  | ok q w =>
      obtain ⟨hres, hcase⟩ := openAppend_ok hopen
      have hq := hreal.resolve_eq hp hnames hres
      subst hq
      have hopened : Machine.Ran (FileEvent q) m { m with toWorld := w } := by
        rcases hcase with ⟨_, rfl⟩ | ⟨_, rfl⟩
        · exact Machine.Ran.refl m
        · exact Machine.Ran.perform (Or.inl ⟨_, _, rfl⟩)
      exact (hopened.trans (Machine.Ran.perform (e := .truncate q w.clock)
        (Or.inr (Or.inl ⟨_, rfl⟩)))).trans
        (Machine.Ran.perform (e := .write q data w.clock) (Or.inr (Or.inr ⟨_, _, rfl⟩)))

namespace Throughout

variable {m : Machine}

/-- While directories are made. -/
theorem of_madeDirs {p : Path} {w : World} (h : MadeDirs p m.toWorld w) :
    Throughout (fun fs => ∀ q, KeptUpTo p m.fs fs q) m { m with toWorld := w } := by
  apply of_ran (Machine.Ran.of_world h.events) fun _ => Or.inl rfl
  intro fs e hfs he q
  obtain ⟨r, rfl, hpre, hnone⟩ := he
  by_cases hroom : fs.Room r
  · have hget : (fs.exec (.mkdir r)).get q = _ := Fs.get_put hroom .dir q
    by_cases hq : q = r
    · subst hq
      exact Or.inr ⟨hpre, hnone, hget.trans (if_pos rfl)⟩
    · unfold KeptUpTo
      rw [hget, if_neg hq]
      exact hfs q
  · have hsame : fs.exec (.mkdir r) = fs := by
      show fs.put r .dir = fs
      unfold Fs.put
      rw [dif_neg hroom]
    rw [hsame]
    exact hfs q

/-- A temporary file was opened, and perhaps written. -/
theorem viaTmp_of_opened {tmp path : Path} {data now : Bytes} {m m' : Machine}
    (h : Opened tmp now m m') : ViaTmp tmp path data m.fs m'.fs := by
  intro q
  by_cases hq : q = tmp
  · subst hq
    obtain ⟨d, hd, -⟩ := h.file
    exact Or.inr (Or.inl ⟨rfl, h.absent, d, hd⟩)
  · exact Or.inl (h.frame q hq)

/-- While a file is written through the temporary file `name` beside it. -/
theorem writeVia {path : Path} {name : Name} (mode : Nat) (data : Bytes) (hne : path ≠ [])
    (hnames : ∀ n ∈ path, ValidName n) (hname : ValidName name)
    (hparent : m.fs.get path.dropLast = some .dir) :
    Throughout (ViaTmp (path.dropLast ++ [name]) path data m.fs) m
      (finalState ((do
        let f ← io (createNew (path.dropLast ++ [name]) mode)
        io (writeAll f data)
        io (rename (path.dropLast ++ [name]) path) : Sys Unit) m)) := by
  have hnames' : ∀ n ∈ path.dropLast ++ [name], ValidName n := by
    intro n hn
    rcases List.mem_append.mp hn with hn | hn
    · exact hnames n (List.mem_of_mem_dropLast hn)
    · rw [List.mem_singleton.mp hn]
      exact hname
  rw [bind_apply]
  cases hcreate : createNew (path.dropLast ++ [name]) mode m.toWorld with
  | error e w =>
      have hw := createNew_error hcreate
      subst hw
      simp only [io, hcreate]
      exact Throughout.refl fun _ => Or.inl rfl
  | ok f w =>
      obtain ⟨hres, hopened⟩ := opened_of_createNew hcreate
      have hf : f = path.dropLast ++ [name] :=
        Except.ok.inj (hres.symm.trans (Fs.resolve_of_parent hnames' (by simp)
          (by rw [List.dropLast_concat]; exact hparent) (by simp)))
      subst hf
      obtain ⟨-, -, hw⟩ := createNew_ok hcreate
      obtain ⟨old, hold, hempty⟩ := hopened.file
      have hfull : Opened (path.dropLast ++ [name]) data m
          { m with toWorld := w.perform (.write (path.dropLast ++ [name]) data w.clock) } := by
        have hstart : Appended (path.dropLast ++ [name]) [] [] { m with toWorld := w }
            { m with toWorld := w } :=
          ⟨⟨old, hold, hempty⟩, fun _ _ => rfl, Machine.Ran.refl _⟩
        exact hopened.append (hstart.write data)
      -- the temporary file is there from its making until the rename
      have hcreated : Throughout (ViaTmp (path.dropLast ++ [name]) path data m.fs) m
          { m with toWorld := w } := by
        have hnow : ViaTmp (path.dropLast ++ [name]) path data m.fs w.fs :=
          viaTmp_of_opened hopened
        rw [hw] at hnow ⊢
        exact Throughout.perform (fun _ => Or.inl rfl) hnow
      have hwritten : Throughout (ViaTmp (path.dropLast ++ [name]) path data m.fs) m
          { m with toWorld := w.perform (.write (path.dropLast ++ [name]) data w.clock) } := by
        exact hcreated.trans (Throughout.perform hcreated.last (viaTmp_of_opened hfull))
      simp only [io, hcreate, bind_apply, writeAll]
      cases hren : rename (path.dropLast ++ [name]) path
          (w.perform (.write (path.dropLast ++ [name]) data w.clock)) with
      | error e w' =>
          have hw' := rename_error hren
          subst hw'
          exact hwritten
      | ok u w' =>
          obtain ⟨p', q', x, hp', hq', _, hdir, rfl⟩ := rename_ok hren
          have hparent' := hfull.grows.dirs _ hparent
          have hp : p' = path.dropLast ++ [name] :=
            Except.ok.inj (hp'.symm.trans (Fs.resolve_of_parent hnames' (by simp)
              (by rw [List.dropLast_concat]; exact hparent') (by simp)))
          have hq : q' = path :=
            Except.ok.inj (hq'.symm.trans (Fs.resolve_of_parent hnames hne hparent' (by simp)))
          subst hp hq
          have hroom : (w.perform (.write (q'.dropLast ++ [name]) data w.clock)).fs.Room q' :=
            ⟨hne, hparent', hdir, fun n hn => hnames n (List.mem_of_getLast? hn)⟩
          obtain ⟨hfile, hframe⟩ := hfull.rename hroom
          refine hwritten.trans (Throughout.perform hwritten.last ?_)
          intro q
          by_cases hq : q = q'
          · subst hq
            exact Or.inr (Or.inr ⟨rfl, hfile⟩)
          · exact Or.inl (hframe q hq)

/-- **While a file is replaced**, whatever the outcome. -/
theorem replaceFile {tag : Bytes} {path : Path} {data : Bytes} (hne : path ≠ [])
    (hnames : ∀ n ∈ path, ValidName n) (htag : ∀ n, ValidName (tmpName m.pid n tag))
    (hlinks : ∀ pre, pre <+: path.dropLast → ∀ t, m.fs.get pre ≠ some (.symlink t)) :
    Throughout (Replacing tag path data m.pid m.fs) m
      (finalState (Store.replaceFile tag path data m)) := by
  have hmade := createDirAll_after (w := m.toWorld)
    (fun n hn => hnames n (List.mem_of_mem_dropLast hn)) hlinks
  unfold Store.replaceFile
  rw [bind_apply, io]
  cases hrun : createDirAll path.dropLast m.toWorld with
  | error e w =>
      rw [hrun] at hmade
      exact (of_madeDirs hmade).mono fun _ h q => Or.inl (h q)
  | ok u w =>
      rw [hrun] at hmade
      obtain ⟨hmade, hparent⟩ := hmade
      have hdirs : Throughout (Replacing tag path data m.pid m.fs) m { m with toWorld := w } :=
        (of_madeDirs hmade).mono fun _ h q => Or.inl (h q)
      have hcount : Throughout (Replacing tag path data m.pid m.fs) { m with toWorld := w }
          { m with toWorld := w, tmpCounter := m.tmpCounter + 1 } :=
        of_ran (P := fun _ => False) ⟨World.Extends.refl _, rfl, rfl⟩ hdirs.last
          fun _ _ _ hfalse => hfalse.elim
      have hvia := writeVia (m := { m with toWorld := w, tmpCounter := m.tmpCounter + 1 })
        defaultMode data hne hnames (htag m.tmpCounter) hparent
      refine hdirs.trans (hcount.trans (hvia.mono ?_))
      intro fs h
      apply Replacing.after_dirs hmade.adds
      intro q
      rcases h q with heq | ⟨hq, hnone, hfile⟩ | hnew
      · exact Or.inl (Or.inl heq)
      · exact Or.inr (Or.inl ⟨⟨m.tmpCounter, hq⟩, hnone, hfile⟩)
      · exact Or.inr (Or.inr hnew)

/-- **While a blob is stored**: it is there already and nothing happens, or it is
not and its file is made. -/
theorem putBlob {path : Path} (stored : Bytes) (hreal : st.Real m.fs)
    (hpath : st.fabricDir <+: path.dropLast) (hne : path ≠ []) (hnames : ∀ n ∈ path, ValidName n) :
    Throughout (fun fs => fs = m.fs ∨ m.fs.get path = none ∧
        Replacing (Store.fileTag path) path stored m.pid m.fs fs) m
      (finalState (Store.putBlob path stored m)) := by
  have hexists := hreal.exists_iff (hpath.trans (List.dropLast_prefix path)) hnames
  have hlinks : ∀ pre, pre <+: path.dropLast → ∀ t, m.fs.get pre ≠ some (.symlink t) :=
    fun pre hpre => hreal.noLink hpath hpre
  unfold Store.putBlob
  rw [bind_apply, look_get]
  simp only
  by_cases hpresent : m.fs.exists path = true
  · rw [if_pos hpresent]
    exact Throughout.refl (Or.inl rfl)
  · have hnone : m.fs.get path = none := by
      by_contra hsome
      exact hpresent (hexists.mpr hsome)
    rw [if_neg hpresent]
    have hmade := createDirAll_after (w := m.toWorld)
      (fun n hn => hnames n (List.mem_of_mem_dropLast hn)) hlinks
    have hlater : ∀ {w : World}, MadeDirs path.dropLast m.toWorld w →
        Throughout (fun fs => fs = m.fs ∨ m.fs.get path = none ∧
          Replacing (Store.fileTag path) path stored m.pid m.fs fs) m { m with toWorld := w } :=
      fun h => (of_madeDirs h).mono fun _ h => Or.inr ⟨hnone, fun q => Or.inl (h q)⟩
    rw [bind_apply, io]
    cases hrun : createDirAll path.dropLast m.toWorld with
    | error e w =>
        rw [hrun] at hmade
        exact hlater hmade
    | ok u w =>
        rw [hrun] at hmade
        refine (hlater hmade.1).trans ((replaceFile (m := { m with toWorld := w }) hne hnames
          (Store.validName_fileTag hnames m.pid) ?_).mono ?_)
        · intro pre hpre t ht
          exact hlinks pre hpre t (hmade.1.adds.link ht)
        · intro fs h
          exact Or.inr ⟨hnone, h.after_dirs hmade.1.adds⟩

/-- While a file is made, emptied and written. -/
theorem of_fileEvents {p : Path} {m' : Machine} (h : Machine.Ran (FileEvent p) m m') :
    Throughout (fun fs => (∀ q, q ≠ p → fs.get q = m.fs.get q) ∧
      (fs.get p = m.fs.get p ∨ ∃ d, fs.get p = some (.file d))) m m' := by
  apply of_ran h ⟨fun _ _ => rfl, Or.inl rfl⟩
  have hmodify : ∀ (fs : Fs) (f : FileData → FileData), (∀ q, q ≠ p → fs.get q = m.fs.get q) ∧
      (fs.get p = m.fs.get p ∨ ∃ d, fs.get p = some (.file d)) →
      (∀ q, q ≠ p → (fs.modifyFile p f).get q = m.fs.get q) ∧
      ((fs.modifyFile p f).get p = m.fs.get p ∨
        ∃ d, (fs.modifyFile p f).get p = some (.file d)) := by
    intro fs f hfs
    by_cases hfile : ∃ d, fs.get p = some (.file d)
    · obtain ⟨d, hd⟩ := hfile
      have hget := Fs.get_modifyFile hd f
      refine ⟨fun q hq => ?_, Or.inr ⟨f d, by rw [hget, if_pos rfl]⟩⟩
      rw [hget, if_neg hq]
      exact hfs.1 q hq
    · have hsame : fs.modifyFile p f = fs := by
        unfold Fs.modifyFile
        split
        case _ d hd => exact absurd ⟨d, hd⟩ hfile
        · rfl
      rw [hsame]
      exact hfs
  intro fs e hfs he
  rcases he with ⟨mode, t, rfl⟩ | ⟨t, rfl⟩ | ⟨data, t, rfl⟩
  · by_cases hroom : fs.Room p
    · have hget : ∀ q, (fs.exec (.create p mode t)).get q = _ := fun q => Fs.get_put hroom _ q
      refine ⟨fun q hq => ?_, Or.inr ⟨_, (hget p).trans (if_pos rfl)⟩⟩
      rw [hget, if_neg hq]
      exact hfs.1 q hq
    · have hsame : fs.exec (.create p mode t) = fs := by
        show fs.put p _ = fs
        unfold Fs.put
        rw [dif_neg hroom]
      rw [hsame]
      exact hfs
  · exact hmodify fs _ hfs
  · exact hmodify fs _ hfs

end Throughout

/-! ## A store that is added to -/

def blobKinds : List Name := [str "objects", str "manifests"]

/-- Both kinds of blobs are plain names. -/
theorem blobKind_valid {kind : Name} (h : kind ∈ blobKinds) : ValidName kind := by
  rcases List.mem_cons.mp h with rfl | h
  · decide
  · rw [List.mem_singleton.mp h]
    decide

theorem blobKind_ne_head {kind : Name} (h : kind ∈ blobKinds) : kind ≠ str "HEAD" := by
  rintro rfl
  exact absurd h (by decide)

/-- The disk while the store of `fs₀` is added to: the store is content
addressed, it has what it had, and the worktree and HEAD are left alone. -/
structure Building (X : Crates) (st : Store) (fs₀ fs : Fs) : Prop where
  sound : Sound X st fs
  files : ∀ kind ∈ blobKinds, ∀ h, fs.get (st.fanPath kind h) ≠ some .dir
  blobs : ∀ kind ∈ blobKinds, ∀ h, fs₀.get (st.fanPath kind h) ≠ none →
    fs.get (st.fanPath kind h) = fs₀.get (st.fanPath kind h)
  outside : ∀ q, ¬ st.fabricDir <+: q → fs.get q = fs₀.get q
  head : fs.get st.headPath = fs₀.get st.headPath

namespace Building

variable {fs₀ fs fs' : Fs}

theorem refl (hsound : Sound X st fs)
    (hfiles : ∀ kind ∈ blobKinds, ∀ h, fs.get (st.fanPath kind h) ≠ some .dir) :
    Building X st fs fs :=
  ⟨hsound, hfiles, fun _ _ _ _ => rfl, fun _ _ => rfl, rfl⟩

/-- While one more blob is stored. -/
theorem blob {kind : Name} {h : Hash} {stored tag : Bytes} {pid : Nat}
    (hb : Building X st fs₀ fs) (hkind : kind ∈ blobKinds)
    (hproper : Proper X st (st.fanPath kind h) stored) (hnone : fs.get (st.fanPath kind h) = none)
    (hstep : Replacing tag (st.fanPath kind h) stored pid fs fs') : Building X st fs₀ fs' := by
  have hreal := hb.sound.real
  have helse : ∀ q, Sync.Elsewhere st kind q → fs'.get q = fs.get q := by
    intro q hq
    rcases hstep q with (heq | ⟨hpre, hnone', _⟩) | ⟨⟨n, rfl⟩, _⟩ | ⟨rfl, _⟩
    · exact heq
    · exact absurd (Sync.above_fanPath hreal hnone' hpre) hq
    · refine absurd ?_ hq
      rw [Store.fanPath_dropLast, List.append_assoc]
      exact (List.prefix_append_right_inj _).mpr ⟨_, rfl⟩
    · exact absurd (Sync.kind_prefix_fanPath h) hq
  have hpresent : ∀ q, fs.get q ≠ none → fs'.get q = fs.get q := by
    intro q hq
    apply hstep.present hq
    rintro rfl
    exact hq hnone
  refine ⟨⟨?_, ?_⟩, ?_, ?_, ?_, ?_⟩
  · apply @Store.Real.of_frame st (Machine.start fs) (Machine.start fs') hreal
    intro q
    rcases hstep q with hkept | ⟨_, hnone', hfile⟩ | ⟨rfl, d, hd, _⟩
    · exact Or.inl ⟨_, hkept⟩
    · refine Or.inr ⟨hfile, ?_⟩
      rintro rfl
      rw [hreal.dir] at hnone'
      cases hnone'
    · refine Or.inr ⟨⟨d, hd⟩, ?_⟩
      intro heq
      rw [heq, hreal.dir] at hnone
      cases hnone
  · apply hb.sound.addressed.of_gains (P := fun q b =>
      (∃ n, q = (st.fanPath kind h).dropLast ++ [tmpName pid n tag]) ∨
        q = st.fanPath kind h ∧ b = stored)
    · intro q d hd
      rcases hstep q with (heq | ⟨_, _, hdir⟩) | ⟨htmp, _⟩ | ⟨rfl, d', hd', hbytes⟩
      · exact Or.inl (heq ▸ hd)
      · rw [hdir] at hd
        cases hd
      · exact Or.inr (Or.inl htmp)
      · rw [hd'] at hd
        cases hd
        exact Or.inr (Or.inr ⟨rfl, hbytes⟩)
    · rintro q b (⟨n, rfl⟩ | ⟨rfl, rfl⟩)
      · exact proper_tmp
      · exact hproper
  · intro kind' hkind' g hdir
    rcases hstep (st.fanPath kind' g) with (heq | ⟨hpre, _, _⟩) | ⟨_, _, d, hd⟩ | ⟨_, d, hd, _⟩
    · exact hb.files kind' hkind' g (heq ▸ hdir)
    · have hlen := hpre.length_le
      rw [Store.fanPath_dropLast] at hlen
      simp [Store.fanPath] at hlen
    · rw [hd] at hdir
      cases hdir
    · rw [hd] at hdir
      cases hdir
  · intro kind' hkind' g hold
    have hkept := hb.blobs kind' hkind' g hold
    rw [hpresent _ (hkept ▸ hold), hkept]
  · intro q hq
    rw [helse q fun hpre => hq ((List.prefix_append _ _).trans hpre)]
    exact hb.outside q hq
  · rw [helse]
    · exact hb.head
    · intro hpre
      have hname := (List.prefix_append_right_inj st.fabricDir).mp hpre
      exact blobKind_ne_head hkind (List.cons_prefix_cons.mp hname).1

/-- While only the notes on remotes change. -/
theorem aside (hb : Building X st fs₀ fs) (hreal : st.Real fs')
    (hsame : ∀ q, ¬ Sync.AmongRemotes st q → fs'.get q = fs.get q) : Building X st fs₀ fs' := by
  have hblob : ∀ kind ∈ blobKinds, ∀ h, fs'.get (st.fanPath kind h) =
      fs.get (st.fanPath kind h) := by
    intro kind hkind h
    apply hsame
    intro hremote
    obtain ⟨rest, heq⟩ := hremote.eq_append
    have hname := (List.cons.inj (List.append_cancel_left heq)).1
    rw [hname] at hkind
    exact absurd hkind (by decide)
  refine ⟨hb.sound.of_touched ⟨hreal, hsame⟩ fun _ _ hq => Sync.proper_remotes hq, ?_, ?_, ?_, ?_⟩
  · intro kind hkind h
    rw [hblob kind hkind h]
    exact hb.files kind hkind h
  · intro kind hkind h hold
    rw [hblob kind hkind h]
    exact hb.blobs kind hkind h hold
  · intro q hq
    rw [hsame q fun hremote => hq ((List.prefix_append _ _).trans hremote)]
    exact hb.outside q hq
  · rw [hsame]
    · exact hb.head
    · intro hremote
      obtain ⟨rest, heq⟩ := hremote.eq_append
      have hname := (List.cons.inj (List.append_cancel_left heq)).1
      exact absurd hname (by decide)

end Building

/-! ## Storing -/

section Storing

variable {m₀ m : Machine}

/-- **Storing a blob keeps the store in order** at every moment. -/
theorem putBlob_building {kind : Name} {h : Hash} {stored : Bytes}
    {r : EStateM.Result Error Machine Unit} (hkind : kind ∈ blobKinds)
    (hproper : Proper X st (st.fanPath kind h) stored)
    (hb : Throughout (Building X st m₀.fs) m₀ m)
    (hrun : Store.putBlob (st.fanPath kind h) stored m = r) :
    Throughout (Building X st m₀.fs) m₀ (finalState r) := by
  subst hrun
  refine hb.trans ((Throughout.putBlob stored hb.last.sound.real
    (Store.fabricDir_prefix_fanPath _ _)
    (Store.fanPath_ne_nil _ _)
    (Store.fanPath_names hb.last.sound.real (blobKind_valid hkind) h)).mono ?_)
  rintro fs (rfl | ⟨hnone, hstep⟩)
  · exact hb.last
  · exact hb.last.blob hkind hproper hnone hstep

/-- The bytes that are stored as an object are proper ones. -/
theorem proper_object (hzstd : Lossless X) (data : Bytes) :
    Proper X st (st.objectPath (X.blake3 data)) (X.zstdEncode data) := by
  refine ⟨fun g heq => ⟨data, hzstd data, Store.fanPath_injective heq⟩, ?_⟩
  intro g heq
  exact absurd heq (objectPath_ne_manifestPath _ _)

theorem proper_manifest (data : Bytes) : Proper X st (st.manifestPath (X.blake3 data)) data := by
  refine ⟨?_, fun g heq => Store.fanPath_injective heq⟩
  intro g heq
  exact absurd heq.symm (objectPath_ne_manifestPath _ _)

/-- The disk was in order at every moment, and these objects are stored. -/
structure Holding (X : Crates) (st : Store) (S : Hash → Prop) (m₀ m : Machine) : Prop where
  building : Throughout (Building X st m₀.fs) m₀ m
  stored : ∀ c, S c → ∃ d, m.fs.get (st.objectPath c) = some (.file d)

variable {S S' : Hash → Prop}

theorem Holding.weaken (h : Holding X st S m₀ m) (hS : ∀ c, S' c → S c) : Holding X st S' m₀ m :=
  ⟨h.building, fun c hc => h.stored c (hS c hc)⟩

/-- What is there under a blob's name is a file. -/
theorem Building.file {fs₀ fs : Fs} (hb : Building X st fs₀ fs) {kind : Name} {h : Hash}
    (hkind : kind ∈ blobKinds) (hsome : fs.get (st.fanPath kind h) ≠ none) :
    ∃ d, fs.get (st.fanPath kind h) = some (.file d) := by
  obtain ⟨x, hx⟩ := Option.ne_none_iff_exists'.mp hsome
  cases x with
  | file d => exact ⟨d, hx⟩
  | dir => exact absurd hx (hb.files kind hkind h)
  | symlink t => exact absurd hx (hb.sound.real.links _ t (List.prefix_append _ _))

/-- A blob that is stored leaves the others. -/
theorem putBlob_present {kind : Name} {h : Hash} {stored : Bytes}
    {r : EStateM.Result Error Machine Unit} (hkind : kind ∈ blobKinds) (hreal : st.Real m.fs)
    (hrun : Store.putBlob (st.fanPath kind h) stored m = r) {q : Path} (hq : m.fs.get q ≠ none) :
    (finalState r).fs.get q = m.fs.get q := by
  subst hrun
  have hlast := (Throughout.putBlob stored hreal (Store.fabricDir_prefix_fanPath kind h)
    (Store.fanPath_ne_nil _ _) (Store.fanPath_names hreal (blobKind_valid hkind) h)).last
  rcases hlast with heq | ⟨hnone, hstep⟩
  · rw [heq]
  · apply hstep.present hq
    rintro rfl
    exact hq hnone

/-- Storing an object adds it to what is held. -/
theorem putObject_holding (hzstd : Lossless X) (data : Bytes) (h : Holding X st S m₀ m) :
    After (st.putObject X data m)
      (fun c m' => Holding X st (fun g => S g ∨ g = c) m₀ m')
      (fun _ m' => Holding X st S m₀ m') := by
  have hreal := h.building.last.sound.real
  have hkind : str "objects" ∈ blobKinds := by decide
  have hkept : ∀ {r : EStateM.Result Error Machine Unit},
      Store.putBlob (st.objectPath (X.blake3 data)) (X.zstdEncode data) m = r →
      Holding X st S m₀ (finalState r) := by
    intro r hrun
    refine ⟨putBlob_building hkind (proper_object hzstd data) h.building hrun, ?_⟩
    intro c hc
    obtain ⟨d, hd⟩ := h.stored c hc
    exact ⟨d, (putBlob_present hkind hreal hrun (by rw [hd]; simp)).trans hd⟩
  have hafter := @putObject_after st X data m hreal
  unfold Store.putObject at hafter ⊢
  rw [bind_apply] at hafter ⊢
  cases hrun : Store.putBlob (st.objectPath (X.blake3 data)) (X.zstdEncode data) m with
  | error e m' => exact hkept hrun
  | ok u m' =>
      rw [hrun] at hafter
      have hnow := hkept hrun
      refine ⟨hnow.building, ?_⟩
      rintro c (hc | rfl)
      · exact hnow.stored c hc
      · exact hnow.building.last.file hkind hafter.2.2

end Storing

namespace Snapshot

section Capture

variable {m₀ m : Machine} {S : Hash → Prop}

/-- Chunking a file adds its chunks to what is held. -/
theorem chunkFile_holding (hzstd : Lossless X) (path : Path) (h : Holding X st S m₀ m) :
    After (chunkFile X st path m)
      (fun r m' => Holding X st (fun c => S c ∨ c ∈ r.2.1) m₀ m')
      (fun _ m' => Holding X st S m₀ m') := by
  unfold chunkFile
  apply after_look_bind _ fun _ _ => h
  intro data _
  have hloop := After.collectAcc (l := chunksOf X data) (s := m) (d := []) (r := [])
    (f := fun piece => do
      let h ← st.putObject X piece
      pure (some h))
    (I := fun _ acc s => Holding X st (fun c => S c ∨ c ∈ acc) m₀ s)
    (E := fun _ s => Holding X st S m₀ s)
    (h.weaken fun c hc => by simpa using hc) ?_
  · apply After.bind hloop
    intro hashes m' h'
    exact h'
  · intro piece _ done acc s hs
    apply After.bind ((putObject_holding hzstd piece hs).mono (fun _ _ h => h)
      fun _ _ h => h.weaken fun _ => Or.inl)
    intro g s' hs'
    apply hs'.weaken
    intro c hc
    rcases hc with hc | hc
    · exact Or.inl (Or.inl hc)
    · rcases List.mem_append.mp hc with hc | hc
      · exact Or.inl (Or.inr hc)
      · exact Or.inr (List.mem_singleton.mp hc)

/-- What an earlier attempt stored stays stored. -/
theorem chunkFileStable_holding (hzstd : Lossless X) (path : Path) (n : Nat)
    (h : Holding X st S m₀ m) :
    After (chunkFileStable X st path n m)
      (fun r m' => Holding X st (fun c => S c ∨ c ∈ r.1.2.1) m₀ m')
      (fun _ m' => Holding X st S m₀ m') := by
  induction n generalizing m with
  | zero =>
      unfold chunkFileStable
      apply after_look_bind _ fun _ _ => h
      intro before _
      apply After.bind (chunkFile_holding hzstd path h)
      intro r m' h'
      apply after_look_bind _ fun _ _ => h'.weaken fun _ => Or.inl
      intro after _
      exact h'
  | succ n ih =>
      unfold chunkFileStable
      apply after_look_bind _ fun _ _ => h
      intro before _
      apply After.bind (chunkFile_holding hzstd path h)
      intro r m' h'
      apply after_look_bind _ fun _ _ => h'.weaken fun _ => Or.inl
      intro after _
      by_cases hsame : before = after
      · rw [if_pos hsame]
        exact h'
      · rw [if_neg hsame]
        exact ih (h'.weaken fun _ => Or.inl)

/-- Capturing an entry adds its chunks to what is held. -/
theorem captureEntry_holding {scanRoot : Path} {patterns : List Bytes} {tombs : List Tombstone}
    (hzstd : Lossless X) (rel : Path) (h : Holding X st S m₀ m) :
    After (captureEntry X st scanRoot patterns tombs rel m)
      (fun out m' => Holding X st
        (fun c => S c ∨ ∃ cap fe, out = some cap ∧ cap.entry = some fe ∧ c ∈ fe.chunks) m₀ m')
      (fun _ m' => Holding X st S m₀ m') := by
  have hnone : Holding X st
      (fun c => S c ∨ ∃ cap fe, (none : Option Capture) = some cap ∧ cap.entry = some fe ∧
        c ∈ fe.chunks) m₀ m := by
    apply h.weaken
    rintro c (hc | ⟨_, _, hcap, _⟩)
    · exact hc
    · cases hcap
  unfold captureEntry
  apply after_look_bind _ fun _ _ => h
  intro node _
  cases node with
  | none => exact hnone
  | some x =>
      cases x with
      | dir => exact hnone
      | symlink t => exact hnone
      | file d =>
          simp only
          by_cases hex : excluded rel = true
          · rw [if_pos hex]
            exact hnone
          rw [if_neg hex]
          by_cases hig : ignored patterns (relStr rel) = true
          · rw [if_pos hig]
            exact hnone
          rw [if_neg hig]
          by_cases htomb : (tombs.any fun t => t.path = relStr rel) = true
          · rw [if_pos htomb]
            exact hnone
          rw [if_neg htomb]
          apply after_look_bind _ fun _ _ => h
          intro _ _
          unfold captureFile
          rw [bind_assoc]
          apply After.bind (chunkFileStable_holding hzstd (scanRoot ++ rel) QUIESCE_RETRIES h)
          rintro ⟨⟨content, chunks, size⟩, changing⟩ m' h'
          by_cases hgone : (tombs.any fun t => t.content = hashHex content) = true
          · simp only [if_pos hgone]
            apply h'.weaken
            rintro c (hc | ⟨cap, fe, hcap, hfe, _⟩)
            · exact Or.inl hc
            · cases hcap
              cases hfe
          · simp only [if_neg hgone]
            apply h'.weaken
            rintro c (hc | ⟨cap, fe, hcap, hfe, hmem⟩)
            · exact Or.inl hc
            · cases hcap
              cases hfe
              exact Or.inr hmem

/-- **The manifest's objects are stored** when it is made, and its parent is
HEAD. -/
theorem buildManifest_holding (scanRoot : Path) (message : Bytes) (actor : Option Bytes)
    (hzstd : Lossless X) (h : Holding X st S m₀ m) :
    After (buildManifest X st scanRoot message actor m)
      (fun mf m' => Holding X st (fun c => ∃ fe ∈ mf.files, c ∈ fe.chunks) m₀ m' ∧
        st.head m'.fs = .ok mf.parent)
      (fun _ m' => Throughout (Building X st m₀.fs) m₀ m') := by
  unfold buildManifest
  apply after_look_bind _ fun _ _ => h.building
  intro patterns _
  apply after_look_bind _ fun _ _ => h.building
  intro tombs _
  apply after_look_bind _ fun _ _ => h.building
  intro entries _
  have hloop := After.collectAcc (l := entries) (s := m) (d := []) (r := [])
    (f := captureEntry X st scanRoot patterns tombs)
    (I := fun _ acc s => Holding X st
      (fun c => ∃ cap ∈ acc, ∃ fe, cap.entry = some fe ∧ c ∈ fe.chunks) m₀ s)
    (E := fun _ s => Throughout (Building X st m₀.fs) m₀ s)
    (h.weaken fun c hc => by simp at hc) ?_
  · apply After.bind hloop
    intro captures m' h'
    apply after_look_bind _ fun _ _ => h'.building
    intro parent hparent
    refine ⟨h'.weaken ?_, hparent⟩
    rintro c ⟨fe, hfe, hc⟩
    obtain ⟨cap, hcap, hentry⟩ := List.mem_filterMap.mp hfe
    exact ⟨cap, by simpa using hcap, fe, hentry, hc⟩
  · intro rel _ done acc s hs
    apply (captureEntry_holding hzstd rel hs).mono
    · intro out s' hs'
      apply hs'.weaken
      rintro c ⟨cap, hcap, fe, hentry, hc⟩
      rcases List.mem_append.mp hcap with hcap | hcap
      · exact Or.inl ⟨cap, hcap, fe, hentry, hc⟩
      · exact Or.inr ⟨cap, fe, Option.mem_toList.mp hcap, hentry, hc⟩
    · exact fun _ _ hs' => hs'.building

end Capture

end Snapshot

/-! ## What a crash leaves -/

/-- Nothing is lost: the store is content addressed, every snapshot that loaded
loads as it did, every object that was read is read as it was, and the worktree
is left alone. -/
structure Durable (X : Crates) (st : Store) (fs₀ fs : Fs) : Prop where
  sound : Sound X st fs
  snapshots : ∀ id mf, Snapshot.load X st fs₀ id = .ok mf → Snapshot.load X st fs id = .ok mf
  objects : ∀ h data, st.getObject X fs₀ h = .ok data → st.getObject X fs h = .ok data
  worktree : ∀ q, ¬ st.fabricDir <+: q → fs.get q = fs₀.get q

/-- Durable when the blobs stay and nothing outside the fabric changes. -/
theorem durable_of_blobs {fs₀ fs : Fs} (hreal : st.Real fs₀) (hsound : Sound X st fs)
    (hblobs : ∀ kind ∈ blobKinds, ∀ h, fs₀.get (st.fanPath kind h) ≠ none →
      fs.get (st.fanPath kind h) = fs₀.get (st.fanPath kind h))
    (houtside : ∀ q, ¬ st.fabricDir <+: q → fs.get q = fs₀.get q) : Durable X st fs₀ fs := by
  refine ⟨hsound, ?_, ?_, houtside⟩
  · intro id mf hload
    obtain ⟨d, hd, hdecode⟩ := (load_eq_ok hreal).mp hload
    have hsame := hblobs (str "manifests") (by decide) id (by
      rw [show fs₀.get (st.fanPath _ id) = _ from hd]
      simp)
    exact (load_eq_ok hsound.real).mpr ⟨d, hsame.trans hd, hdecode⟩
  · intro h data hget
    have hsome : fs₀.get (st.objectPath h) ≠ none :=
      (hreal.exists_iff ((Store.fabricDir_prefix_fanPath _ _).trans (List.dropLast_prefix _))
        (Store.fanPath_names hreal (by decide) h)).mp
        (Sync.hasObject_of_getObject hreal hget)
    apply Revert.getObject_congr hreal hsound.real hget
    have hsame : fs.get (st.objectPath h) = fs₀.get (st.objectPath h) :=
      hblobs (str "objects") (by decide) h hsome
    unfold Fs.leaf
    rw [hsame]

theorem Building.durable {fs₀ fs : Fs} (hreal : st.Real fs₀) (hb : Building X st fs₀ fs) :
    Durable X st fs₀ fs ∧ st.head fs = st.head fs₀ :=
  ⟨durable_of_blobs hreal hb.sound hb.blobs hb.outside,
    Snapshot.head_congr hreal hb.sound.real hb.head⟩

namespace Snapshot

/-- HEAD is the snapshot with this manifest, which is there with all its objects
and has the old HEAD as its parent. -/
structure Committed (X : Crates) (st : Store) (mf : Manifest) (fs₀ fs : Fs) : Prop where
  parent : st.head fs₀ = .ok mf.parent
  head : st.head fs = .ok (some (X.blake3 (mf.serialize X)))
  manifest : ∃ d, fs.get (st.manifestPath (X.blake3 (mf.serialize X))) = some (.file d)
  objects : ∀ fe ∈ mf.files, ∀ c ∈ fe.chunks, ∃ d, fs.get (st.objectPath c) = some (.file d)

/-- No temporary file has the name of HEAD. -/
theorem head_ne_tmp {pid n : Nat} {tag : Bytes} : str "HEAD" ≠ tmpName pid n tag := by
  intro heq
  obtain ⟨rest, hrest⟩ : ∃ rest, tmpName pid n tag = 46 :: rest := ⟨_, rfl⟩
  have hfirst : (str "HEAD").head? = some 46 := by rw [heq, hrest]; rfl
  exact absurd hfirst (by decide)

/-- **While HEAD is moved** to a snapshot that is complete. -/
theorem setHead_throughout {m₀ m : Machine} {mf : Manifest} (hreal₀ : st.Real m₀.fs)
    (hb : Building X st m₀.fs m.fs) (hparent : st.head m₀.fs = .ok mf.parent)
    (hmanifest : ∃ d, m.fs.get (st.manifestPath (X.blake3 (mf.serialize X))) = some (.file d))
    (hobjects : ∀ fe ∈ mf.files, ∀ c ∈ fe.chunks,
      ∃ d, m.fs.get (st.objectPath c) = some (.file d)) :
    Throughout (fun fs => Durable X st m₀.fs fs ∧
        (st.head fs = st.head m₀.fs ∨ Committed X st mf m₀.fs fs)) m
      (finalState (st.setHead (some (X.blake3 (mf.serialize X))) m)) := by
  have hreal := hb.sound.real
  have hnames : ∀ n ∈ st.headPath, ValidName n := Purge.record_names hreal (by decide)
  have hne : st.headPath ≠ [] := by simp [Store.headPath]
  have hdrop : st.headPath.dropLast = st.fabricDir := List.dropLast_concat
  have hlen : st.headPath.length = st.fabricDir.length + 1 := by simp [Store.headPath]
  refine (Throughout.replaceFile hne hnames (Store.validName_fileTag hnames m.pid)
    fun pre hpre => hreal.noLink (by rw [hdrop]) hpre).mono ?_
  intro fs hstep
  have hfan : ∀ kind ∈ blobKinds, ∀ h, m.fs.get (st.fanPath kind h) ≠ none →
      fs.get (st.fanPath kind h) = m.fs.get (st.fanPath kind h) := by
    intro kind _ h hsome
    apply hstep.present hsome
    intro heq
    have hlen' := congrArg List.length heq
    rw [hlen] at hlen'
    simp [Store.fanPath] at hlen'
  have hfile : ∀ kind ∈ blobKinds, ∀ h, (∃ d, m.fs.get (st.fanPath kind h) = some (.file d)) →
      ∃ d, fs.get (st.fanPath kind h) = some (.file d) := by
    rintro kind hkind h ⟨d, hd⟩
    exact ⟨d, (hfan kind hkind h (by rw [hd]; simp)).trans hd⟩
  have hreal' : st.Real fs := by
    apply @Store.Real.of_frame st (Machine.start m.fs) (Machine.start fs) hreal
    intro q
    rcases hstep q with hkept | ⟨_, hnone, hnew⟩ | ⟨rfl, d, hd, _⟩
    · exact Or.inl ⟨_, hkept⟩
    · refine Or.inr ⟨hnew, ?_⟩
      rintro rfl
      rw [hreal.dir] at hnone
      cases hnone
    · refine Or.inr ⟨⟨d, hd⟩, ?_⟩
      intro heq
      rw [heq] at hlen
      omega
  have hsound : Sound X st fs := by
    refine ⟨hreal', hb.sound.addressed.of_gains (P := fun q _ =>
      (∃ n, q = st.fabricDir ++ [tmpName m.pid n (Store.fileTag st.headPath)]) ∨
        q = st.headPath) ?_ ?_⟩
    · intro q d hd
      rcases hstep q with (heq | ⟨_, _, hdir⟩) | ⟨htmp, _⟩ | ⟨rfl, _⟩
      · exact Or.inl (heq ▸ hd)
      · rw [hdir] at hd
        cases hd
      · exact Or.inr (Or.inl (hdrop ▸ htmp))
      · exact Or.inr (Or.inr rfl)
    · rintro q b (⟨n, rfl⟩ | rfl)
      · exact proper_tmp
      · exact proper_elsewhere (by decide) (by decide)
  have hdurable : Durable X st m₀.fs fs := by
    apply durable_of_blobs hreal₀ hsound
    · intro kind hkind h hold
      have hkept := hb.blobs kind hkind h hold
      rw [hfan kind hkind h (hkept ▸ hold), hkept]
    · intro q hq
      rw [← hb.outside q hq]
      rcases hstep q with (heq | ⟨hpre, hnone, _⟩) | ⟨⟨n, rfl⟩, _⟩ | ⟨rfl, _⟩
      · exact heq
      · rw [hdrop] at hpre
        rw [m.fs.dir_of_prefix hreal.dir hpre] at hnone
        cases hnone
      · exact absurd (by rw [hdrop]; exact List.prefix_append _ _) hq
      · exact absurd (List.prefix_append _ _) hq
  refine ⟨hdurable, ?_⟩
  rcases hstep st.headPath with (heq | ⟨hpre, _, _⟩) | ⟨⟨n, heq⟩, _⟩ | ⟨_, d, hd, hbytes⟩
  · exact Or.inl (head_congr hreal₀ hreal' (heq.trans hb.head))
  · have hlen' := hpre.length_le
    rw [hdrop, hlen] at hlen'
    omega
  · rw [hdrop] at heq
    exact absurd (List.cons.inj (List.append_cancel_left heq)).1 head_ne_tmp
  · exact Or.inr ⟨hparent, head_of_file hd hbytes,
      hfile (str "manifests") (by decide) _ hmanifest,
      fun fe hfe c hc => hfile (str "objects") (by decide) c (hobjects fe hfe c hc)⟩

/-- **A crash during a snapshot loses nothing.**  After any of its events, the
store is content addressed and has all that it had, the worktree is untouched,
and HEAD is the old one, or the snapshot of the manifest that was built, which is
there with every object it refers to and follows the old HEAD. -/
theorem createFromActor_crashSafe {scanRoot : Path} {message : Bytes} {actor : Option Bytes}
    {m : Machine} (hzstd : Lossless X) (hsound : Sound X st m.fs)
    (hfiles : ∀ kind ∈ blobKinds, ∀ h, m.fs.get (st.fanPath kind h) ≠ some .dir) :
    Throughout (fun fs => Durable X st m.fs fs ∧ (st.head fs = st.head m.fs ∨
        ∃ mf m₁, buildManifest X st scanRoot message actor m = .ok mf m₁ ∧
          Committed X st mf m.fs fs)) m
      (finalState (createFromActor X st scanRoot message actor m)) := by
  have hreal := hsound.real
  have hstart : Holding X st (fun _ => False) m m :=
    ⟨Throughout.refl (.refl hsound hfiles), fun _ h => h.elim⟩
  have hbuild := buildManifest_holding scanRoot message actor hzstd hstart
  have hearly : ∀ {m' : Machine}, Throughout (Building X st m.fs) m m' →
      Throughout (fun fs => Durable X st m.fs fs ∧ (st.head fs = st.head m.fs ∨
        ∃ mf m₁, buildManifest X st scanRoot message actor m = .ok mf m₁ ∧
          Committed X st mf m.fs fs)) m m' :=
    fun h => h.mono fun fs hb => ⟨(hb.durable hreal).1, Or.inl (hb.durable hreal).2⟩
  obtain ⟨r, hrun⟩ : ∃ r, buildManifest X st scanRoot message actor m = r := ⟨_, rfl⟩
  cases r with
  | error e m₁ =>
      have hout : createFromActor X st scanRoot message actor m = .error e m₁ := by
        unfold createFromActor
        rw [bind_apply, hrun]
      rw [hout]
      exact hearly (hbuild.error hrun)
  | ok mf m₁ =>
      obtain ⟨hhold, hparent⟩ := hbuild.ok hrun
      have hout : createFromActor X st scanRoot message actor m = storeManifest X st mf m₁ := by
        unfold createFromActor
        rw [bind_apply, hrun]
      have hkind : str "manifests" ∈ blobKinds := by decide
      have hreal₁ := hhold.building.last.sound.real
      rw [hout]
      unfold storeManifest Store.putManifest
      simp only [bind_apply]
      cases hblob : Store.putBlob (st.manifestPath (X.blake3 (mf.serialize X))) (mf.serialize X)
          m₁ with
      | error e m₂ =>
          exact hearly (putBlob_building hkind (proper_manifest _) hhold.building hblob)
      | ok u m₂ =>
          have hput : Throughout (Building X st m.fs) m m₂ :=
            putBlob_building hkind (proper_manifest _) hhold.building hblob
          have hsome : m₂.fs.get (st.manifestPath (X.blake3 (mf.serialize X))) ≠ none := by
            rcases (Store.putBlob_after hreal₁ (Store.fabricDir_prefix_fanPath _ _)
              (Store.fanPath_ne_nil _ _) (Store.fanPath_names hreal₁ (by decide) _)).ok hblob with
              ⟨hthere, rfl⟩ | ⟨_, hwrote⟩
            · exact hthere
            · obtain ⟨d, hd, _⟩ := hwrote.file
              exact hd ▸ Option.some_ne_none _
          have hobjects : ∀ fe ∈ mf.files, ∀ c ∈ fe.chunks,
              ∃ d, m₂.fs.get (st.objectPath c) = some (.file d) := by
            intro fe hfe c hc
            obtain ⟨d, hd⟩ := hhold.stored c ⟨fe, hfe, hc⟩
            have hsame : m₂.fs.get (st.objectPath c) = _ :=
              putBlob_present hkind hreal₁ hblob (by rw [hd]; simp)
            exact ⟨d, hsame.trans hd⟩
          have hparent₀ : st.head m.fs = .ok mf.parent := by
            rw [← hparent]
            exact (hhold.building.last.durable hreal).2.symm
          have hmove := setHead_throughout hreal hput.last hparent₀
            (hput.last.file hkind hsome) hobjects
          have hlate := (hearly hput).trans (hmove.mono fun fs h =>
            ⟨h.1, h.2.imp id fun hcommitted => ⟨mf, m₁, hrun, hcommitted⟩⟩)
          simp only [pure_apply]
          cases hhead : st.setHead (some (X.blake3 (mf.serialize X))) m₂ with
          | error e m₃ =>
              rw [hhead] at hlate
              exact hlate
          | ok u m₃ =>
              rw [hhead] at hlate
              exact hlate

/-- Nothing lies among the blobs. -/
theorem files_of_keys {fs : Fs}
    (h : ∀ k ∈ fs.nodes.keys, ∀ kind ∈ blobKinds, st.fabricDir ++ [kind] <+: k →
      k = st.fabricDir ++ [kind]) : ∀ kind ∈ blobKinds, ∀ g,
      fs.get (st.fanPath kind g) ≠ some .dir := by
  intro kind hkind g hdir
  have hkey := h _ (fs.mem_keys hdir) kind hkind (Sync.kind_prefix_fanPath g)
  have hlength := congrArg List.length hkey
  simp [Store.fanPath] at hlength

theorem newFabric_sound : Sound newCrates ⟨[str "w"]⟩ (Machine.start newFabric).fs :=
  ⟨Store.Real.of_keys (by decide +kernel) (by decide +kernel),
    Addressed.of_keys _ _ (by decide +kernel)⟩

/-- The first snapshot of a tree. -/
theorem createFromActor_crashSafe_first :
    Throughout (fun fs => Durable newCrates ⟨[str "w"]⟩ newFabric fs ∧
        (Store.head ⟨[str "w"]⟩ fs = Store.head ⟨[str "w"]⟩ newFabric ∨
          ∃ mf m₁, buildManifest newCrates ⟨[str "w"]⟩ [str "w"] [] none (Machine.start newFabric) =
            .ok mf m₁ ∧ Committed newCrates ⟨[str "w"]⟩ mf newFabric fs))
      (Machine.start newFabric)
      (finalState (createFromActor newCrates ⟨[str "w"]⟩ [str "w"] [] none
        (Machine.start newFabric))) :=
  createFromActor_crashSafe (fun _ _ => rfl) newFabric_sound (files_of_keys (by decide +kernel))

end Snapshot

namespace Sync

/-- Every write of a pull keeps the store in order at every moment. -/
theorem kept_building {m₀ : Machine} (hzstd : Lossless X) :
    Kept X st fun m => Throughout (Building X st m₀.fs) m₀ m := by
  have hnamesRemotes : ∀ {fs : Fs}, st.Real fs → ∀ n ∈ remotesDir st, ValidName n :=
    fun hreal => Purge.record_names hreal (by decide)
  refine ⟨?_, ?_, ?_, ?_⟩
  · intro m data h
    unfold Store.putManifest
    refine (after_of_final ?_).bind fun _ _ h' => h'
    exact putBlob_building (by decide) (proper_manifest data) h rfl
  · intro m data h
    unfold Store.putObject
    refine (after_of_final ?_).bind fun _ _ h' => h'
    exact putBlob_building (by decide) (proper_object hzstd data) h rfl
  · intro m h
    have hreal := h.last.sound.real
    apply after_io
    have hmade := createDirAll_after (w := m.toWorld) (hnamesRemotes hreal)
      fun pre hpre => hreal.noLink (List.prefix_append _ _) hpre
    have hlater : ∀ {w : World}, MadeDirs (remotesDir st) m.toWorld w →
        Throughout (Building X st m₀.fs) m₀ { m with toWorld := w } := by
      intro w hw
      refine h.trans ((Throughout.of_madeDirs hw).mono fun fs hkept => ?_)
      apply h.last.aside
      · exact @Store.Real.of_frame st (Machine.start m.fs) (Machine.start fs) hreal
          fun q => Or.inl ⟨_, hkept q⟩
      · intro q hq
        rcases hkept q with heq | ⟨hpre, hnone, _⟩
        · exact heq
        · exfalso
          rcases List.prefix_concat_iff.mp (show q <+: st.fabricDir ++ [str "remotes"] from hpre)
            with rfl | habove
          · exact hq (List.prefix_refl _)
          · rw [m.fs.dir_of_prefix hreal.dir habove] at hnone
            cases hnone
    exact hmade.mono (fun _ _ hw => hlater hw.1) fun _ _ hw => hlater hw
  · intro m addr h haddr hI
    have hreal := hI.last.sound.real
    have hin : st.fabricDir <+: remotesDir st ++ [sanitize addr] :=
      (List.prefix_append _ _).trans (List.prefix_append _ _)
    have hnames : ∀ n ∈ remotesDir st ++ [sanitize addr], ValidName n := by
      intro n hn
      rcases List.mem_append.mp hn with hn | hn
      · exact hnamesRemotes hreal n hn
      · rw [List.mem_singleton.mp hn]
        exact validName_sanitize haddr
    apply after_of_final
    refine hI.trans ((Throughout.of_fileEvents
      (writeFile_ran (hashHex h) hreal hin hnames)).mono fun fs hfs => ?_)
    apply hI.last.aside
    · apply @Store.Real.of_frame st (Machine.start m.fs) (Machine.start fs) hreal
      intro q
      by_cases hq : q = remotesDir st ++ [sanitize addr]
      · subst hq
        rcases hfs.2 with heq | hfile
        · exact Or.inl ⟨[], Or.inl heq⟩
        · refine Or.inr ⟨hfile, ?_⟩
          intro heq
          have hlen := congrArg List.length heq
          simp [remotesDir] at hlen
      · exact Or.inl ⟨[], Or.inl (hfs.1 q hq)⟩
    · intro q hq
      apply hfs.1
      rintro rfl
      exact hq (List.prefix_append _ _)

/-- **A crash during a pull loses nothing**, whatever the peer sends: after any
of its events the store is content addressed and has all that it had, and the
worktree and HEAD are untouched. -/
theorem pull_crashSafe {addr : Bytes} {peer : Peer} {m : Machine} (hzstd : Lossless X)
    (hsound : Sound X st m.fs)
    (hfiles : ∀ kind ∈ blobKinds, ∀ h, m.fs.get (st.fanPath kind h) ≠ some .dir) :
    Throughout (fun fs => Durable X st m.fs fs ∧ st.head fs = st.head m.fs) m
      (finalState (pull X st addr peer m)) :=
  (pull_keeps (I := fun m' => Throughout (Building X st m.fs) m m') (kept_building hzstd)
    (Throughout.refl (.refl hsound hfiles))).final.mono fun _ hb => hb.durable hsound.real

/-- A pull of two snapshots. -/
theorem pull_crashSafe_pair :
    Throughout (fun fs => Durable pairCrates ⟨[str "w"]⟩ newFabric fs ∧
        Store.head ⟨[str "w"]⟩ fs = Store.head ⟨[str "w"]⟩ newFabric)
      (Machine.start newFabric)
      (finalState (pull pairCrates ⟨[str "w"]⟩ (str "peer:7")
        (steady pairCrates ⟨[str "p"]⟩ pairFabric) (Machine.start newFabric))) := by
  have hsound : Sound pairCrates ⟨[str "w"]⟩ (Machine.start newFabric).fs :=
    ⟨newFabric_real, Addressed.of_keys _ _ (by decide +kernel)⟩
  have hfiles : ∀ kind ∈ blobKinds, ∀ h,
      (Machine.start newFabric).fs.get (Store.fanPath ⟨[str "w"]⟩ kind h) ≠ some .dir :=
    Snapshot.files_of_keys (by decide +kernel)
  exact pull_crashSafe (fun _ _ => rfl) hsound hfiles

end Sync

end Respawn
