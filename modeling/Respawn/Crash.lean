import Respawn.Reach

/-!
# Crashes during a revert

A revert changes the disk by one event after another, and a crash or an error
leaves the disk as some number of them made it.  `Throughout` says that the disk
has a property before the first event and after each.  It composes, so the
statement about a whole revert is put together from those about opening a
temporary file, copying the chunks, the rename, and so on.
-/

namespace Respawn

open ByteStr FileTree StateLogic

variable {X : Crates} {st : Store}

/-- The disk had `I` in `m` and after every event since. -/
structure Throughout (I : Fs → Prop) (m m' : Machine) : Prop where
  ran : Machine.Ran (fun _ => True) m m'
  holds : ∀ evs, evs <+: m.since m' → I (evs.foldl Fs.exec m.fs)

/-- The disk is what the events made of it. -/
theorem Machine.Ran.fs_eq {P : Event → Prop} {m m' : Machine} (h : Machine.Ran P m m') :
    m'.fs = (m.since m').foldl Fs.exec m.fs := by
  obtain ⟨_, evs, ht, hfs, _⟩ := h.events
  rw [hfs, Machine.since, ht, List.drop_left]

/-- What each event keeps holds after all of them. -/
theorem foldl_exec_kept {I : Fs → Prop} {P : Event → Prop}
    (hstep : ∀ fs e, I fs → P e → I (fs.exec e)) {evs : List Event} {fs : Fs} (h : I fs)
    (hP : ∀ e ∈ evs, P e) : I (evs.foldl Fs.exec fs) := by
  induction evs generalizing fs with
  | nil => exact h
  | cons e evs ih =>
      exact ih (hstep fs e h (hP e (by simp))) fun e' he' => hP e' (List.mem_cons_of_mem _ he')

namespace Throughout

variable {I J : Fs → Prop} {m m' m'' : Machine}

theorem first (h : Throughout I m m') : I m.fs := h.holds [] List.nil_prefix

theorem last (h : Throughout I m m') : I m'.fs := by
  rw [h.ran.fs_eq]
  exact h.holds _ (List.prefix_refl _)

theorem mono (h : Throughout I m m') (hIJ : ∀ fs, I fs → J fs) : Throughout J m m' :=
  ⟨h.ran, fun evs hevs => hIJ _ (h.holds evs hevs)⟩

/-- What holds throughout two runs holds throughout both. -/
theorem trans (h : Throughout I m m') (h' : Throughout I m' m'') : Throughout I m m'' := by
  refine ⟨h.ran.trans h'.ran, ?_⟩
  intro evs hevs
  rw [h.ran.since_trans h'.ran] at hevs
  rcases List.prefix_or_prefix_of_prefix hevs (List.prefix_append _ _) with hin | ⟨rest, rfl⟩
  · exact h.holds evs hin
  · rw [List.foldl_append, ← h.ran.fs_eq]
    exact h'.holds rest ((List.prefix_append_right_inj _).mp hevs)

/-- A run of events that each keep `I`. -/
theorem of_ran {P : Event → Prop} (h : Machine.Ran P m m') (hI : I m.fs)
    (hstep : ∀ fs e, I fs → P e → I (fs.exec e)) : Throughout I m m' := by
  refine ⟨h.mono fun _ _ => trivial, ?_⟩
  intro evs hevs
  exact foldl_exec_kept hstep hI fun e he => h.since (hevs.subset he)

theorem refl (h : I m.fs) : Throughout I m m :=
  of_ran (P := fun _ => False) (Machine.Ran.refl m) h fun _ _ _ hfalse => hfalse.elim

/-- One event, with what holds before and after it. -/
theorem perform {e : Event} (h : I m.fs) (h' : I (m.fs.exec e)) :
    Throughout I m { m with toWorld := m.toWorld.perform e } := by
  refine ⟨Machine.Ran.perform trivial, ?_⟩
  intro evs hevs
  have hsince : m.since { m with toWorld := m.toWorld.perform e } = [e] := by
    simp [Machine.since]
  rw [hsince] at hevs
  rcases List.prefix_concat_iff.mp (show evs <+: [] ++ [e] from hevs) with rfl | hnil
  · exact h'
  · rw [List.prefix_nil.mp hnil]
    exact h

/-- Events at one path leave the others alone. -/
theorem of_elsewhere {p : Path} {P : Event → Prop} (h : Machine.Ran P m m')
    (hP : ∀ e, P e → ∀ q ∈ e.paths, q = p) :
    Throughout (fun fs => ∀ q, q ≠ p → fs.get q = m.fs.get q) m m' := by
  apply of_ran h fun _ _ => rfl
  intro fs e hfs he q hq
  rw [Fs.get_exec_of_not_mem fun hmem => hq (hP e he q hmem)]
  exact hfs q hq

end Throughout

/-- What holds of the final state holds after either outcome. -/
theorem after_of_final {α : Type} {r : EStateM.Result Error Machine α} {P : Machine → Prop}
    (h : P (finalState r)) : After r (fun _ => P) (fun _ => P) := by
  cases r <;> exact h

/-! ## Directories -/

/-- Making directories changes nodes to directories only. -/
theorem get_mkdirs {evs : List Event} {fs : Fs} (h : ∀ e ∈ evs, ∃ q, e = .mkdir q) (q : Path) :
    (evs.foldl Fs.exec fs).get q = fs.get q ∨ (evs.foldl Fs.exec fs).get q = some .dir := by
  refine foldl_exec_kept (P := fun e => ∃ q, e = Event.mkdir q)
    (I := fun fs' => fs'.get q = fs.get q ∨ fs'.get q = some .dir) ?_ (Or.inl rfl) h
  intro fs' e hfs' he
  obtain ⟨r, rfl⟩ := he
  by_cases hroom : fs'.Room r
  · have hget : (fs'.exec (.mkdir r)).get q = _ := Fs.get_put hroom .dir q
    by_cases hq : q = r
    · exact Or.inr (hget.trans (if_pos hq))
    · rw [hget, if_neg hq]
      exact hfs'
  · have hsame : fs'.exec (.mkdir r) = fs' := by
      show fs'.put r .dir = fs'
      unfold Fs.put
      rw [dif_neg hroom]
    rw [hsame]
    exact hfs'

/-- The files and links stay while directories are made. -/
theorem Throughout.of_madeSome {m m' : Machine} {P : Event → Prop} (hran : Machine.Ran P m m')
    (hP : ∀ e, P e → ∃ q, e = .mkdir q) (hnew : Fs.NewDirs m.fs m'.fs) :
    Throughout (fun fs => ∀ q, fs.leaf q = m.fs.leaf q) m m' := by
  refine ⟨hran.mono fun _ _ => trivial, ?_⟩
  intro evs hevs q
  obtain ⟨rest, hrest⟩ := hevs
  have hmade : ∀ e ∈ evs ++ rest, ∃ q, e = .mkdir q := fun e he => hP e (hran.since (hrest ▸ he))
  unfold Fs.leaf
  rcases @get_mkdirs evs m.fs (fun e he => hmade e (List.mem_append_left _ he)) q with
    heq | hdir
  · rw [heq]
  · -- a directory made stays one, so no file was there before
    have hlast : m'.fs.get q = some .dir := by
      rw [hran.fs_eq, ← hrest, List.foldl_append]
      rcases @get_mkdirs rest (evs.foldl Fs.exec m.fs)
        (fun e he => hmade e (List.mem_append_right _ he)) q with heq | hdir'
      · exact heq.trans hdir
      · exact hdir'
    rw [hdir]
    rcases hnew q with heq | ⟨hnone, _⟩
    · rw [← heq, hlast]
    · rw [hnone]

/-! ## One entry -/

/-- A file at `q` has bytes with this hash. -/
def Holds (X : Crates) (fs : Fs) (q : Path) (h : Hash) : Prop :=
  ∃ d, fs.leaf q = some (.file d) ∧ X.blake3 d.bytes = h

theorem Holds.congr {fs fs' : Fs} {q : Path} {h : Hash} (hholds : Holds X fs q h)
    (hleaf : fs'.leaf q = fs.leaf q) : Holds X fs' q h := by
  obtain ⟨d, hd, hhash⟩ := hholds
  exact ⟨d, hleaf.trans hd, hhash⟩

namespace Revert

/-- Besides the temporary file at most the destination changed, and it has the
entry's content. -/
def Swapped (X : Crates) (tmp dest : Path) (fe : FileEntry) (fs₀ fs : Fs) : Prop :=
  ∀ q, q ≠ tmp → fs.get q = fs₀.get q ∨ q = dest ∧ Holds X fs q fe.content

/-- As long as only the temporary file is worked on. -/
theorem swapped_of_tmp {tmp dest : Path} {fe : FileEntry} {m m' : Machine}
    (h : Machine.Ran (TmpEvent tmp) m m') :
    Throughout (Swapped X tmp dest fe m.fs) m m' :=
  (Throughout.of_elsewhere h fun _ he _ hq => he.paths hq).mono fun _ hsame q hq =>
    Or.inl (hsame q hq)

/-- The rename puts the whole content in place at once. -/
theorem replace_throughout {T : Path} {m m' : Machine} {pid n : Nat} {data : Bytes}
    {rel : RelPath} {fe : FileEntry} (hready : Ready st T m.fs)
    (hparent : m.fs.get (st.root ++ rel.comps.dropLast) = some .dir)
    (h : Opened (ownTmp T pid n) data m m') (hdata : X.blake3 data = fe.content) :
    Throughout (Swapped X (ownTmp T pid n) (st.root ++ rel.comps) fe m.fs) m
      (finalState ((do
        io (rename (tmpDir st ++ [tmpName pid n (str "revert")]) (rel.under st.root))
        setMode (rel.under st.root) fe.mode : Sys Unit) m')) := by
  have hfirst : Throughout (Swapped X (ownTmp T pid n) (st.root ++ rel.comps) fe m.fs) m m' :=
    swapped_of_tmp h.ran
  cases hren : rename (tmpDir st ++ [tmpName pid n (str "revert")]) (rel.under st.root)
      m'.toWorld with
  | error e w =>
      have hw := rename_error hren
      subst hw
      rw [bind_apply, io, hren]
      exact hfirst
  | ok u w =>
      obtain ⟨hplain, hroom, rfl⟩ := rename_tmp_ok (hready.grow h.grows)
        (h.grows.dirs _ hparent) hren
      obtain ⟨⟨d, hfile, hbytes⟩, hframe⟩ := h.rename hroom
      rw [bind_apply, io, hren]
      simp only
      rw [RelPath.under_plain hplain, setMode_of_file hfile]
      have hmode : ∀ q, ((m'.fs.exec (.rename (ownTmp T pid n) (st.root ++ rel.comps))).exec
          (.chmod (st.root ++ rel.comps) (fe.mode % 512))).get q = _ := fun q =>
        Fs.get_modifyFile hfile _ q
      have hmoved : Swapped X (ownTmp T pid n) (st.root ++ rel.comps) fe m.fs
          (m'.fs.exec (.rename (ownTmp T pid n) (st.root ++ rel.comps))) := by
        intro q _
        by_cases hq : q = st.root ++ rel.comps
        · subst hq
          exact Or.inr ⟨rfl, d, Fs.leaf_eq_some _ |>.mpr ⟨hfile, by simp⟩, hbytes ▸ hdata⟩
        · exact Or.inl (hframe q hq)
      refine hfirst.trans (Throughout.trans (Throughout.perform hfirst.last hmoved)
        (Throughout.perform hmoved ?_))
      intro q hne
      by_cases hq : q = st.root ++ rel.comps
      · subst hq
        exact Or.inr ⟨rfl, _, Fs.leaf_eq_some _ |>.mpr ⟨(hmode _).trans (if_pos rfl), by simp⟩,
          hbytes ▸ hdata⟩
      · rcases hmoved q hne with heq | ⟨hdest, _⟩
        · exact Or.inl (((hmode q).trans (if_neg hq)).trans heq)
        · exact absurd hdest hq

/-- **Replacing a destination is atomic**, whatever its outcome. -/
theorem materialize_throughout {T : Path} {m : Machine} {rel : RelPath} {fe : FileEntry}
    (hready : Ready st T m.fs)
    (hparent : m.fs.get (st.root ++ rel.comps.dropLast) = some .dir) :
    Throughout (Swapped X (ownTmp T m.pid m.tmpCounter) (st.root ++ rel.comps) fe m.fs) m
      (finalState (materialize X st (rel.under st.root) fe m)) := by
  have hunfold : materialize X st (rel.under st.root) fe m =
      (io (createNew (tmpDir st ++ [tmpName m.pid m.tmpCounter (str "revert")]) defaultMode) >>=
        fun f => copyChunks X st f fe.chunks >>= fun data =>
          if X.blake3 data ≠ fe.content then do
            ignore (removeFile (tmpDir st ++ [tmpName m.pid m.tmpCounter (str "revert")]))
            throw (.corrupt (str "reconstructed content mismatch for " ++ fe.path))
          else do
            io (rename (tmpDir st ++ [tmpName m.pid m.tmpCounter (str "revert")])
              (rel.under st.root))
            setMode (rel.under st.root) fe.mode)
        { m with tmpCounter := m.tmpCounter + 1 } := rfl
  have hopen : After (io (createNew
      (tmpDir st ++ [tmpName m.pid m.tmpCounter (str "revert")]) defaultMode)
      { m with tmpCounter := m.tmpCounter + 1 }) _ _ := openTmp_after hready
  rw [hunfold, bind_apply]
  cases hcreate : io (createNew (tmpDir st ++ [tmpName m.pid m.tmpCounter (str "revert")])
      defaultMode) { m with tmpCounter := m.tmpCounter + 1 } with
  | error e m₂ =>
      rw [hopen.error hcreate]
      exact swapped_of_tmp ⟨World.Extends.refl _, rfl, rfl⟩
  | ok f m₂ =>
      obtain ⟨rfl, hopened, _⟩ := hopen.ok hcreate
      have hopened' : Opened (ownTmp T m.pid m.tmpCounter) [] m m₂ :=
        ⟨hopened.absent, hopened.file, hopened.frame, hopened.ran.events, hopened.ran.pid,
          hopened.ran.keychain⟩
      obtain ⟨old, hold, holdbytes⟩ := hopened'.file
      have hcopied : After (copyChunks X st _ fe.chunks m₂) _ _ :=
        copyChunks_after X hold fe.chunks
      rw [holdbytes] at hcopied
      simp only
      rw [bind_apply]
      cases hcopy : copyChunks X st (ownTmp T m.pid m.tmpCounter) fe.chunks m₂ with
      | error e m₃ =>
          obtain ⟨data, happ⟩ := hcopied.error hcopy
          exact swapped_of_tmp (hopened'.append happ).ran
      | ok data m₃ =>
          have happ := hopened'.append (hcopied.ok hcopy)
          simp only
          by_cases hdata : X.blake3 data = fe.content
          · rw [if_neg (not_not.mpr hdata)]
            exact replace_throughout hready hparent happ hdata
          · rw [if_pos hdata]
            exact swapped_of_tmp (discard_after hready happ).ran

/-- Besides temporary files at most the place of the entry changed, and it has
the entry's content. -/
def Placing (X : Crates) (root T : Path) (pid : Nat) (fe : FileEntry) (fs₀ fs : Fs) : Prop :=
  ∀ q, (∀ n, q ≠ ownTmp T pid n) → fs.leaf q = fs₀.leaf q ∨
    destination root fe = some q ∧ Holds X fs q fe.content

/-- **Bringing one entry in place is atomic**, whatever its outcome. -/
theorem writeEntry_throughout {T : Path} {m : Machine} {fe : FileEntry}
    (hready : Ready st T m.fs) :
    Throughout (Placing X st.root T m.pid fe m.fs) m
      (finalState (writeEntry X st st.root fe m)) := by
  have hsame : Placing X st.root T m.pid fe m.fs m.fs := fun _ _ => Or.inl rfl
  unfold writeEntry
  rw [bind_apply]
  cases hlook : look (resolveDest st.root fe.path) m with
  | error e m₀ =>
      obtain ⟨_, rfl⟩ := look_eq_error.mp hlook
      exact Throughout.refl hsame
  | ok rel m₀ =>
      obtain ⟨hok, rfl⟩ := look_eq_ok.mp hlook
      obtain ⟨hpath, hclear⟩ := (resolveDest_eq_ok hready.root).mp hok
      have hdest : destination st.root fe = some (st.root ++ rel.comps) := by
        simp only [destination, hpath]
      obtain ⟨m₁, hmake, hparent, hmade, hpid, hkey, _⟩ :=
        makeParents hready.root (valid_under hready.root rel) hclear rel.nonempty
      have hready₁ := hready.grow hmade.adds.newDirs.grows
      have hran₁ : Machine.Ran (fun e => ∃ q, e = .mkdir q) m₀ m₁ :=
        ⟨hmade.events.mono fun _ hmkdir => hmkdir.imp fun _ hq => hq.1, hpid, hkey⟩
      have hparents : Throughout (Placing X st.root T m₀.pid fe m₀.fs) m₀ m₁ :=
        (Throughout.of_madeSome hran₁ (fun _ h => h) hmade.adds.newDirs).mono
          fun _ h q _ => Or.inl (h q)
      have hleaf := hmade.adds.newDirs.leaf_eq
      simp only
      rw [bind_apply, hmake]
      simp only
      rw [bind_apply]
      cases hneeds : look (needsWrite X (rel.under st.root) fe) m₁ with
      | error e m₂ =>
          obtain ⟨_, rfl⟩ := look_eq_error.mp hneeds
          exact hparents
      | ok b m₂ =>
          obtain ⟨_, rfl⟩ := look_eq_ok.mp hneeds
          cases b with
          | false => exact hparents
          | true =>
              have hmat : Throughout (Placing X st.root T m₀.pid fe m₀.fs) m₂
                  (finalState (materialize X st (rel.under st.root) fe m₂)) := by
                apply (materialize_throughout hready₁ hparent).mono
                intro fs h q hq
                rcases h q (hpid ▸ hq _) with heq | ⟨rfl, hholds⟩
                · left
                  rw [← hleaf q]
                  unfold Fs.leaf
                  rw [heq]
                · exact Or.inr ⟨hdest, hholds⟩
              simp only [if_true]
              rw [bind_apply]
              cases hrun : materialize X st (rel.under st.root) fe m₂ with
              | error e m₃ =>
                  rw [hrun] at hmat
                  exact hparents.trans hmat
              | ok u m₃ =>
                  rw [hrun] at hmat
                  exact hparents.trans hmat

/-! ## The write pass -/

/-- Besides temporary files each place holds what it held, or the content of an
entry that belongs there. -/
def Filling (X : Crates) (root T : Path) (pid : Nat) (files : List FileEntry) (fs₀ fs : Fs) :
    Prop :=
  ∀ q, (∀ n, q ≠ ownTmp T pid n) → fs.leaf q = fs₀.leaf q ∨
    ∃ fe ∈ files, destination root fe = some q ∧ Holds X fs q fe.content

/-- Throughout the write pass each destination is filled or as it was. -/
theorem writePass_throughout {T : Path} {m : Machine} {files : List FileEntry}
    (hready : Ready st T m.fs) :
    After (writePass X st st.root files m)
      (fun _ m' => Throughout (Filling X st.root T m.pid files m.fs) m m')
      (fun _ m' => Throughout (Filling X st.root T m.pid files m.fs) m m') := by
  have hstart : Throughout (Filling X st.root T m.pid files m.fs) m m :=
    Throughout.refl fun _ _ => Or.inl rfl
  have hloop : After (writePass X st st.root files m)
      (fun _ m' => Ready st T m'.fs ∧ Throughout (Filling X st.root T m.pid files m.fs) m m')
      (fun _ m' => Ready st T m'.fs ∧ Throughout (Filling X st.root T m.pid files m.fs) m m') := by
    apply After.collectReach
      (I := fun s => Ready st T s.fs ∧ Throughout (Filling X st.root T m.pid files m.fs) m s)
      ⟨hready, hstart⟩
    intro pre fe post outs s hfiles _ h
    have hfe : fe ∈ files := by simp [hfiles]
    have hentry : After (writeEntry X st st.root fe s) _ _ := writeEntry_after h.1
    have hgrows : Fs.Grows s.fs (finalState (writeEntry X st st.root fe s)).fs :=
      (hentry.mono (fun _ _ h' => h'.1.grows) fun _ _ h' => h'.1.grows).final
    apply after_of_final (P := fun s' => Ready st T s'.fs ∧
      Throughout (Filling X st.root T m.pid files m.fs) m s')
    refine ⟨h.1.grow hgrows, h.2.trans ((writeEntry_throughout h.1).mono ?_)⟩
    intro fs hplacing q hq
    rcases hplacing q (fun n => h.2.ran.pid ▸ hq n) with heq | ⟨hdest, hholds⟩
    · rcases h.2.last q hq with heq' | ⟨fe', hfe', hdest', hholds'⟩
      · exact Or.inl (heq.trans heq')
      · exact Or.inr ⟨fe', hfe', hdest', hholds'.congr heq⟩
    · exact Or.inr ⟨fe, hfe, hdest, hholds⟩
  exact hloop.mono (fun _ _ h => h.2) fun _ _ h => h.2

/-! ## Cleaning up -/

/-- The components of a path joined by single separators: a string, with no
empty component and no `.`. -/
def Canonical (p : Bytes) : Prop :=
  ∃ comps : List Name, comps ≠ [] ∧
    (∀ n ∈ comps, n ≠ [] ∧ n ≠ dot ∧ slash ∉ n ∧ validUtf8 n = true) ∧ p = joinSlash comps

/-- A canonical path is read as the components that it joins. -/
theorem Canonical.read {p : Bytes} {rel : RelPath} (h : Canonical p)
    (hrel : sanitizeRel p = .ok rel) : p = joinSlash rel.comps ∧ rel.dirOnly = false ∧
      ∀ n ∈ rel.comps, validUtf8 n = true ∧ backslash ∉ n := by
  obtain ⟨comps, hne, hcomps, rfl⟩ := h
  have hsplit : (joinSlash comps).splitOn slash = comps :=
    splitOn_joinSlash hne fun n hn => (hcomps n hn).2.2.1
  obtain ⟨hbytes, hnormal⟩ := plain_of_sanitizeRel hrel
  have hvalid : ∀ n ∈ comps, ValidName n := by
    intro n hn
    obtain ⟨hempty, hdot, hslash, _⟩ := hcomps n hn
    refine ⟨hempty, hdot, ?_, hslash, ?_⟩
    · intro heq
      have hup : Component.parentDir ∈ components (joinSlash comps) := by
        unfold components
        rw [hsplit]
        apply List.mem_append_right
        exact List.mem_filterMap.mpr ⟨n, hn, by rw [heq]; decide⟩
      exact absurd (hnormal _ hup) (by decide)
    · intro hzero
      exact hbytes.1 (mem_joinSlash_of_mem hn hzero)
  obtain ⟨hread, hfile⟩ := sanitizeRel_joinSlash hne hvalid hrel
  rw [hread]
  refine ⟨rfl, hfile, ?_⟩
  intro n hn
  exact ⟨(hcomps n hn).2.2.2, fun hback => hbytes.2 (mem_joinSlash_of_mem hn hback)⟩

/-- A canonical path is spelled as the components that it is read as. -/
theorem Canonical.spelled {p : Bytes} {rel : RelPath} (h : Canonical p)
    (hrel : sanitizeRel p = .ok rel) : relStr rel.comps = p := by
  obtain ⟨hjoin, _, hnames⟩ := h.read hrel
  rw [relStr_eq_joinSlash (fun n hn => (hnames n hn).1) fun n hn => (hnames n hn).2]
  exact hjoin.symm

/-- Removing a file takes one leaf away. -/
theorem leaf_exec_unlink (fs : Fs) (p q : Path) :
    (fs.exec (.unlink p)).leaf q = if q = p then none else fs.leaf q := by
  cases hleaf : fs.leaf p with
  | none =>
      have hsame : fs.exec (.unlink p) = fs := by simp only [Fs.exec, hleaf]; rfl
      rw [hsame]
      by_cases hq : q = p
      · rw [if_pos hq, hq, hleaf]
      · rw [if_neg hq]
  | some x =>
      have hget := Fs.get_exec_unlink hleaf q
      unfold Fs.leaf
      by_cases hq : q = p
      · rw [hget, if_pos hq, if_pos hq]
      · rw [hget, if_neg hq, if_neg hq]

/-- Removing a directory takes no leaf away. -/
theorem leaf_exec_rmdir (fs : Fs) (p q : Path) : (fs.exec (.rmdir p)).leaf q = fs.leaf q := by
  by_cases hdir : fs.get p = some .dir ∧ fs.Bare p
  · have hget := Fs.get_exec_rmdir hdir.1 hdir.2 q
    unfold Fs.leaf
    rw [hget]
    by_cases hq : q = p
    · rw [if_pos hq, hq, hdir.1]
    · rw [if_neg hq]
  · have hsame : fs.exec (.rmdir p) = fs := by
      show (if fs.get p = some .dir then fs.remove p else fs) = fs
      by_cases hp : fs.get p = some .dir
      · rw [if_pos hp]
        unfold Fs.remove
        rw [dif_neg fun hbare => hdir ⟨hp, hbare⟩]
      · rw [if_neg hp]
    rw [hsame]

/-- Each place holds what it held, or nothing and no entry belongs there. -/
def Clearing (root : Path) (files : List FileEntry) (fs₀ fs : Fs) : Prop :=
  ∀ q, fs.leaf q = fs₀.leaf q ∨ fs.leaf q = none ∧ ∀ fe ∈ files, destination root fe ≠ some q

/-- No entry belongs at a place that the removal pass takes away. -/
theorem no_entry_of_removable {root rel : Path} {mf : Manifest} {node : Option Node}
    (hcanonical : ∀ fe ∈ mf.files, Canonical fe.path) (h : removable mf rel node = true) :
    ∀ fe ∈ mf.files, destination root fe ≠ some (root ++ rel) := by
  intro fe hfe hdest
  unfold destination at hdest
  cases hrel : sanitizeRel fe.path with
  | error e =>
      rw [hrel] at hdest
      cases hdest
  | ok r =>
      rw [hrel] at hdest
      have hcomps : r.comps = rel := List.append_cancel_left (Option.some.inj hdest)
      have hspelled := (hcanonical fe hfe).spelled hrel
      rw [hcomps] at hspelled
      obtain ⟨x, rfl, hx⟩ := removable_leaf h
      have hunknown : ∀ f ∈ mf.files, f.path ≠ relStr rel := by
        cases x with
        | dir => exact absurd rfl hx
        | file d =>
            simp only [removable, Bool.and_eq_true, Bool.not_eq_true', List.contains_eq_mem,
              List.mem_map, decide_eq_false_iff_not, not_exists, not_and] at h
            exact h.2
        | symlink t =>
            simp only [removable, Bool.and_eq_true, Bool.not_eq_true', List.contains_eq_mem,
              List.mem_map, decide_eq_false_iff_not, not_exists, not_and] at h
            exact h.2
      exact hunknown fe hfe hspelled.symm

/-- Cleaning up takes away files that the removal pass may take, and cannot
fail. -/
theorem tidy_leaves {m : Machine} {mf : Manifest} {keepExtra : Bool} {restored : List Bytes}
    {K : Path → Prop} (hK : ∀ rel node, removable mf rel node = true → K (st.root ++ rel)) :
    After (tidy st.root mf keepExtra restored m)
      (fun _ m' => Throughout (fun fs => ∀ q, fs.leaf q = m.fs.leaf q ∨ fs.leaf q = none ∧ K q)
        m m') (fun _ _ => False) := by
  have hextras : After (removalPass st.root mf keepExtra m) _ _ := removalPass_after
  apply After.bind hextras
  intro extras m₁ h₁
  have hremoved : Throughout
      (fun fs => ∀ q, fs.leaf q = m.fs.leaf q ∨ fs.leaf q = none ∧ K q) m m₁ := by
    apply Throughout.of_ran h₁.2.2 fun _ => Or.inl rfl
    intro fs e hfs he q
    obtain ⟨rel, rfl, hrem⟩ := he
    rw [leaf_exec_unlink]
    by_cases hq : q = st.root ++ rel
    · rw [if_pos hq, hq]
      exact Or.inr ⟨rfl, hK _ _ hrem⟩
    · rw [if_neg hq]
      exact hfs q
  apply After.bind pruneEmptyDirs_after
  intro _ m₂ h₂
  refine hremoved.trans (Throughout.of_ran h₂.2 hremoved.last ?_)
  intro fs e hfs he q
  obtain ⟨rel, rfl, _⟩ := he
  rw [leaf_exec_rmdir]
  exact hfs q

/-- **Cleaning up takes away files that no entry is for**, and cannot fail. -/
theorem tidy_throughout {m : Machine} {mf : Manifest} {keepExtra : Bool} {restored : List Bytes}
    (hcanonical : ∀ fe ∈ mf.files, Canonical fe.path) :
    After (tidy st.root mf keepExtra restored m)
      (fun _ m' => Throughout (Clearing st.root mf.files m.fs) m m') (fun _ _ => False) :=
  tidy_leaves fun _ _ hrem => no_entry_of_removable hcanonical hrem

/-! ## The whole revert -/

/-- Nothing is torn at `p`: it holds what it held, or the content of an entry
that belongs there, or nothing and no entry belongs there. -/
def Untorn (X : Crates) (root : Path) (files : List FileEntry) (fs₀ fs : Fs) (p : Path) : Prop :=
  fs.leaf p = fs₀.leaf p ∨
    (∃ fe ∈ files, destination root fe = some p ∧ Holds X fs p fe.content) ∨
    fs.leaf p = none ∧ ∀ fe ∈ files, destination root fe ≠ some p

/-- Every entry is in its place. -/
def InPlace (X : Crates) (root : Path) (files : List FileEntry) (fs : Fs) : Prop :=
  ∀ fe ∈ files, ∃ q, destination root fe = some q ∧ Holds X fs q fe.content

/-- The event removes a file, a link or a directory other than a temporary
file of this process. -/
def Removes (st : Store) (m : Machine) (e : Event) : Prop :=
  ∃ q, (e = .unlink q ∨ e = .rmdir q) ∧ ¬ IsOwnTmp st m q

/-- In a fabric without links the temporary files lie in `.respawn`. -/
theorem not_isOwnTmp_of_real {m : Machine} {p : Path} (hreal : st.Real m.fs)
    (hp : ¬ st.fabricDir <+: p) : ¬ IsOwnTmp st m p := by
  intro h
  obtain ⟨m₁, T, n, hmade, hT, rfl⟩ := h
  have hnames : ∀ n ∈ tmpDir st, ValidName n := Purge.record_names hreal (by decide)
  have hdirs : After (createDirAll (tmpDir st) m.toWorld) _ _ :=
    createDirAll_after hnames fun pre hpre => hreal.noLink (List.prefix_append _ _) hpre
  obtain ⟨w, hw, rfl⟩ := io_eq_ok.mp hmade
  have hself : w.fs.resolve false (tmpDir st) = .ok (tmpDir st) :=
    Fs.resolve_of_get (hdirs.ok hw).2 (by simp)
  have hdot : w.fs.resolve false (tmpDir st ++ [dot]) = .ok (tmpDir st) :=
    Fs.resolve_snoc_dot (fun _ _ h => h) (hdirs.ok hw).2 hself
  have hsame : T = tmpDir st := Except.ok.inj (hT.symm.trans hdot)
  apply hp
  rw [hsame]
  exact (List.prefix_append _ _).trans (List.prefix_append _ _)

/-- Entries of different paths belong in different places. -/
theorem eq_of_destination {root q : Path} {files : List FileEntry} {fe fe' : FileEntry}
    (hcanonical : ∀ fe ∈ files, Canonical fe.path) (hdistinct : (files.map FileEntry.path).Nodup)
    (hfe : fe ∈ files) (hfe' : fe' ∈ files) (h : destination root fe = some q)
    (h' : destination root fe' = some q) : fe = fe' := by
  apply List.inj_on_of_nodup_map hdistinct hfe hfe'
  unfold destination at h h'
  cases hrel : sanitizeRel fe.path with
  | error e =>
      rw [hrel] at h
      cases h
  | ok r =>
      cases hrel' : sanitizeRel fe'.path with
      | error e =>
          rw [hrel'] at h'
          cases h'
      | ok r' =>
          rw [hrel] at h
          rw [hrel'] at h'
          have hcomps : r.comps = r'.comps :=
            List.append_cancel_left (Option.some.inj (h.trans h'.symm))
          calc fe.path = relStr r.comps := ((hcanonical fe hfe).spelled hrel).symm
            _ = relStr r'.comps := by rw [hcomps]
            _ = fe'.path := (hcanonical fe' hfe').spelled hrel'

/-- After the write pass every entry is in its place. -/
theorem inPlace_of_restored {root : Path} {files : List FileEntry} {fs fs' : Fs}
    (hcanonical : ∀ fe ∈ files, Canonical fe.path) (hdistinct : (files.map FileEntry.path).Nodup)
    (hplain : ∀ fe ∈ files, ∃ rel, sanitizeRel fe.path = .ok rel ∧ rel.dirOnly = false)
    (h : Restored X root files fs fs') : InPlace X root files fs' := by
  intro fe hfe
  obtain ⟨rel, hrel, _⟩ := hplain fe hfe
  have hdest : destination root fe = some (root ++ rel.comps) := by
    simp only [destination, hrel]
  refine ⟨_, hdest, ?_⟩
  have hplace := h (root ++ rel.comps)
  cases hlast : lastAt root files (root ++ rel.comps) with
  | none => exact absurd hdest (lastAt_eq_none.mp hlast fe hfe)
  | some fe' =>
      rw [hlast] at hplace
      obtain ⟨hfe', hdest'⟩ := mem_of_lastAt hlast
      rw [eq_of_destination hcanonical hdistinct hfe hfe' hdest hdest']
      exact hplace

/-- Places stay untorn while what no entry is for is cleared. -/
theorem Untorn.clear {root p : Path} {files : List FileEntry} {fs₀ fs₁ fs : Fs}
    (h : Untorn X root files fs₀ fs₁ p) (hclear : Clearing root files fs₁ fs) :
    Untorn X root files fs₀ fs p := by
  rcases hclear p with heq | hgone
  · rcases h with hsame | ⟨fe, hfe, hdest, hholds⟩ | ⟨hnone, hno⟩
    · exact Or.inl (heq.trans hsame)
    · exact Or.inr (Or.inl ⟨fe, hfe, hdest, hholds.congr heq⟩)
    · exact Or.inr (Or.inr ⟨heq.trans hnone, hno⟩)
  · exact Or.inr (Or.inr hgone)

/-- What is in place stays while the rest is cleared. -/
theorem InPlace.clear {root : Path} {files : List FileEntry} {fs₁ fs : Fs}
    (h : InPlace X root files fs₁) (hclear : Clearing root files fs₁ fs) :
    InPlace X root files fs := by
  intro fe hfe
  obtain ⟨q, hdest, hholds⟩ := h fe hfe
  refine ⟨q, hdest, ?_⟩
  rcases hclear q with heq | ⟨_, hno⟩
  · exact hholds.congr heq
  · exact absurd hdest (hno fe hfe)

/-- What is said of a revert from `m` that ended in `m'`. -/
structure CrashSafe (X : Crates) (st : Store) (mf : Manifest) (m m' : Machine) : Prop where
  untorn : ∀ p, ¬ IsOwnTmp st m p →
    Throughout (fun fs => Untorn X st.root mf.files m.fs fs p) m m'
  placed : ∀ done e, done ++ [e] <+: m.since m' → Removes st m e →
    InPlace X st.root mf.files (done.foldl Fs.exec m.fs)

/-- A stretch in which nothing but temporary files is removed. -/
theorem crashSafe_of_quiet {mf : Manifest} {m m' : Machine} {P : Event → Prop}
    (huntorn : ∀ p, ¬ IsOwnTmp st m p →
      Throughout (fun fs => Untorn X st.root mf.files m.fs fs p) m m')
    (hran : Machine.Ran P m m') (hquiet : ∀ e, P e → ¬ Removes st m e) :
    CrashSafe X st mf m m' := by
  refine ⟨huntorn, ?_⟩
  intro done e hpre hrem
  exact absurd hrem (hquiet e (hran.since (hpre.subset (by simp))))

/-- Cleaning up after a stretch that put every entry in its place. -/
theorem crashSafe_of_clearing {mf : Manifest} {m m₂ m₃ : Machine}
    (huntorn : ∀ p, ¬ IsOwnTmp st m p →
      Throughout (fun fs => Untorn X st.root mf.files m.fs fs p) m m₂)
    (hran : Machine.Ran (fun e => ¬ Removes st m e) m m₂)
    (hplace : InPlace X st.root mf.files m₂.fs)
    (hclear : Throughout (Clearing st.root mf.files m₂.fs) m₂ m₃) : CrashSafe X st mf m m₃ := by
  refine ⟨?_, ?_⟩
  · intro p hp
    apply (huntorn p hp).trans
    exact hclear.mono fun fs hfs => (huntorn p hp).last.clear hfs
  · intro done e hpre hrem
    rw [hran.since_trans hclear.ran] at hpre
    rcases List.prefix_or_prefix_of_prefix hpre (List.prefix_append _ _) with hin | ⟨rest, hrest⟩
    · exact absurd hrem (hran.since (hin.subset (by simp)))
    · rcases List.eq_nil_or_concat rest with rfl | ⟨rest, e', rfl⟩
      · rw [List.append_nil] at hrest
        have hmem : e ∈ m.since m₂ := by
          rw [hrest]
          simp
        exact absurd hrem (hran.since hmem)
      · -- the removal comes after the stretch
        rw [List.concat_eq_append, ← List.append_assoc] at hrest
        obtain ⟨rfl, _⟩ := List.append_inj' hrest rfl
        rw [List.foldl_append, ← hran.fs_eq]
        apply hplace.clear
        apply hclear.holds
        rw [List.append_assoc] at hpre
        exact (List.prefix_append _ _).trans ((List.prefix_append_right_inj _).mp hpre)

/-- Nothing but temporary files is removed by the write pass. -/
theorem writePass_quiet {m m₁ : Machine} {T : Path} {files : List FileEntry}
    (hready : Ready st T m₁.fs) (hpid : m₁.pid = m.pid)
    (hown : ∀ n, IsOwnTmp st m (ownTmp T m.pid n)) :
    After (writePass X st st.root files m₁)
      (fun _ m₂ => Machine.Ran (fun e => ¬ Removes st m e) m₁ m₂)
      (fun _ m₂ => Machine.Ran (fun e => ¬ Removes st m e) m₁ m₂) := by
  refine (writePass_after (P := fun e => ¬ Removes st m e) hready ?_).mono
    (fun _ _ h => h.2) fun _ _ h => h.2
  intro pre fe post outs s e _ _ _ hpid' he hrem
  obtain ⟨q, hq, hnot⟩ := hrem
  rcases he with ⟨r, rfl, _⟩ | ⟨n, he⟩ | ⟨rel, _, ⟨n, rfl⟩ | ⟨mode, rfl⟩⟩
  · rcases hq with hq | hq <;> cases hq
  · have hmem : q ∈ e.paths := by
      rcases hq with rfl | rfl <;> exact List.mem_singleton_self _
    rw [he.paths hmem, hpid', hpid] at hnot
    exact hnot (hown n)
  · rcases hq with hq | hq <;> cases hq
  · rcases hq with hq | hq <;> cases hq

/-- **What every place holds during a revert**, whatever its outcome: what it
held, the content of an entry that belongs there, or nothing. -/
theorem apply_leaves {m : Machine} {mf : Manifest} {keepExtra : Bool} {p : Path}
    (hroot : m.fs.get st.root = some .dir) (hp : ¬ IsOwnTmp st m p) :
    Throughout (fun fs => fs.leaf p = m.fs.leaf p ∨
        (∃ fe ∈ mf.files, destination st.root fe = some p ∧ Holds X fs p fe.content) ∨
        fs.leaf p = none) m (finalState (apply X st st.root mf keepExtra m)) := by
  have hsame : ∀ fs : Fs, fs.leaf p = m.fs.leaf p → fs.leaf p = m.fs.leaf p ∨
      (∃ fe ∈ mf.files, destination st.root fe = some p ∧ Holds X fs p fe.content) ∨
      fs.leaf p = none := fun _ h => Or.inl h
  unfold apply
  rw [bind_apply]
  cases hcheck : look (precheck X st mf) m with
  | error e m₀ =>
      obtain ⟨_, rfl⟩ := look_eq_error.mp hcheck
      exact Throughout.refl (hsame _ rfl)
  | ok u m₀ =>
      obtain ⟨hchecked, rfl⟩ := look_eq_ok.mp hcheck
      simp only
      rw [bind_apply]
      have hdirs : ∀ {w : World}, MadeSome m₀.toWorld w →
          Throughout (fun fs => ∀ q, fs.leaf q = m₀.fs.leaf q) m₀ { m₀ with toWorld := w } :=
        fun hw => Throughout.of_madeSome (Machine.Ran.of_world hw.events) (fun _ h => h) hw.newDirs
      have hmake : After (createDirAll (tmpDir st) m₀.toWorld) _ _ := createDirAll_made
      cases hmade : io (createDirAll (tmpDir st)) m₀ with
      | error e m₁ =>
          obtain ⟨no, w, hw, _, rfl⟩ := io_eq_error.mp hmade
          exact (hdirs (hmake.error hw)).mono fun fs h => hsame fs (h p)
      | ok u₁ m₁ =>
          obtain ⟨w, hw, rfl⟩ := io_eq_ok.mp hmade
          obtain ⟨hsome, T, hT⟩ := hmake.ok hw
          have hleaves := hdirs hsome
          have hstarted : Throughout _ m₀ { m₀ with toWorld := w } :=
            hleaves.mono fun fs h => hsame fs (h p)
          have hready := Started.ready ⟨hchecked, hmade, hT⟩ hroot
          have hfill : ∀ {m₂ : Machine}, Throughout (Filling X st.root T m₀.pid mf.files w.fs)
              { m₀ with toWorld := w } m₂ → Throughout (fun fs => fs.leaf p = m₀.fs.leaf p ∨
                (∃ fe ∈ mf.files, destination st.root fe = some p ∧ Holds X fs p fe.content) ∨
                fs.leaf p = none) m₀ m₂ := by
            intro m₂ h
            apply hstarted.trans
            apply h.mono
            intro fs hfs
            rcases hfs p (fun n heq => hp (heq ▸ ⟨_, T, n, hmade, hT, rfl⟩)) with heq | hin
            · exact Or.inl (heq.trans (hleaves.last p))
            · exact Or.inr (Or.inl hin)
          have hwrites : After (writePass X st st.root mf.files { m₀ with toWorld := w }) _ _ :=
            writePass_throughout hready
          simp only
          rw [bind_apply]
          cases hwrite : writePass X st st.root mf.files { m₀ with toWorld := w } with
          | error e m₂ => exact hfill (hwrites.error hwrite)
          | ok restored m₂ =>
              have hfilled := hfill (hwrites.ok hwrite)
              refine ((tidy_leaves (K := fun _ => True) fun _ _ _ => trivial).mono ?_ ?_).final
                (P := fun m₃ => Throughout _ m₀ m₃)
              · intro _ m₃ hclear
                apply hfilled.trans
                apply hclear.mono
                intro fs hfs
                rcases hfs p with heq | ⟨hnone, _⟩
                · rcases hfilled.last with hsame' | ⟨fe, hfe, hdest, hholds⟩ | hnone
                  · exact Or.inl (heq.trans hsame')
                  · exact Or.inr (Or.inl ⟨fe, hfe, hdest, hholds.congr heq⟩)
                  · exact Or.inr (Or.inr (heq.trans hnone))
                · exact Or.inr (Or.inr hnone)
              · intro _ _ h
                exact h.elim

/-- **A crash during a revert never tears a file.**  After any number of its
events, whatever its outcome, every place but those of its own temporary files
is untorn, and nothing else is removed before every entry is in its place. -/
theorem apply_crashSafe (X : Crates) (st : Store) (m : Machine) (mf : Manifest)
    (keepExtra : Bool) (hroot : m.fs.get st.root = some .dir)
    (hcanonical : ∀ fe ∈ mf.files, Canonical fe.path)
    (hdistinct : (mf.files.map FileEntry.path).Nodup) :
    CrashSafe X st mf m (finalState (apply X st st.root mf keepExtra m)) := by
  have hkept : ∀ {m₁ : Machine}, Throughout (fun fs => ∀ q, fs.leaf q = m.fs.leaf q) m m₁ →
      ∀ p, ¬ IsOwnTmp st m p →
        Throughout (fun fs => Untorn X st.root mf.files m.fs fs p) m m₁ :=
    fun h p _ => h.mono fun _ hleaf => Or.inl (hleaf p)
  have hmkdir : ∀ e, (∃ q, e = .mkdir q) → ¬ Removes st m e := by
    intro e he hrem
    obtain ⟨q, rfl⟩ := he
    obtain ⟨p, hp | hp, _⟩ := hrem <;> cases hp
  unfold apply
  rw [bind_apply]
  cases hcheck : look (precheck X st mf) m with
  | error e m₀ =>
      obtain ⟨_, rfl⟩ := look_eq_error.mp hcheck
      exact crashSafe_of_quiet (hkept (Throughout.refl fun _ => rfl))
        (Machine.Ran.refl (P := fun e => ∃ q, e = .mkdir q) m₀) hmkdir
  | ok u m₀ =>
      obtain ⟨hchecked, rfl⟩ := look_eq_ok.mp hcheck
      simp only
      rw [bind_apply]
      have hdirs : ∀ {w : World}, MadeSome m₀.toWorld w →
          Machine.Ran (fun e => ∃ q, e = .mkdir q) m₀ { m₀ with toWorld := w } ∧
            Throughout (fun fs => ∀ q, fs.leaf q = m₀.fs.leaf q) m₀ { m₀ with toWorld := w } := by
        intro w hw
        have hran := Machine.Ran.of_world hw.events
        exact ⟨hran, Throughout.of_madeSome hran (fun _ h => h) hw.newDirs⟩
      have hmake : After (createDirAll (tmpDir st) m₀.toWorld) _ _ := createDirAll_made
      cases hmade : io (createDirAll (tmpDir st)) m₀ with
      | error e m₁ =>
          obtain ⟨no, w, hw, _, rfl⟩ := io_eq_error.mp hmade
          obtain ⟨hran, hleaves⟩ := hdirs (hmake.error hw)
          exact crashSafe_of_quiet (hkept hleaves) hran hmkdir
      | ok u₁ m₁ =>
          obtain ⟨w, hw, rfl⟩ := io_eq_ok.mp hmade
          obtain ⟨hsome, T, hT⟩ := hmake.ok hw
          obtain ⟨hran₁, hleaves⟩ := hdirs hsome
          have hready := Started.ready ⟨hchecked, hmade, hT⟩ hroot
          have hown : ∀ n, IsOwnTmp st m₀ (ownTmp T m₀.pid n) := fun n => ⟨_, T, n, hmade, hT, rfl⟩
          have hfill : ∀ {m₂ : Machine}, Throughout (Filling X st.root T m₀.pid mf.files w.fs)
              { m₀ with toWorld := w } m₂ → ∀ p, ¬ IsOwnTmp st m₀ p →
                Throughout (fun fs => Untorn X st.root mf.files m₀.fs fs p) m₀ m₂ := by
            intro m₂ h p hp
            apply (hkept hleaves p hp).trans
            apply h.mono
            intro fs hfs
            rcases hfs p (fun n heq => hp (heq ▸ hown n)) with heq | hin
            · exact Or.inl (heq.trans (hleaves.last p))
            · exact Or.inr (Or.inl hin)
          have hquiet : After (writePass X st st.root mf.files { m₀ with toWorld := w }) _ _ :=
            writePass_quiet (m := m₀) hready rfl hown
          have hwrites : After (writePass X st st.root mf.files { m₀ with toWorld := w }) _ _ :=
            writePass_throughout hready
          have hran₀ := hran₁.mono hmkdir
          simp only
          rw [bind_apply]
          cases hwrite : writePass X st st.root mf.files { m₀ with toWorld := w } with
          | error e m₂ =>
              exact crashSafe_of_quiet (hfill (hwrites.error hwrite))
                (hran₀.trans (hquiet.error hwrite)) fun _ h => h
          | ok restored m₂ =>
              obtain ⟨hrestored, _, hplain⟩ := writePass_ok hready hwrite
              refine ((tidy_throughout hcanonical).mono ?_ ?_).final (P := CrashSafe X st mf m₀)
              · intro _ m₃ hclear
                exact crashSafe_of_clearing (hfill (hwrites.ok hwrite))
                  (hran₀.trans (hquiet.ok hwrite))
                  (inPlace_of_restored hcanonical hdistinct hplain hrestored) hclear
              · intro _ _ h
                exact h.elim

/-- A manifest of one file, whose content is in the fabric. -/
def plainManifest : Manifest := smallManifest none none [smallEntry (str "d/a") (str "evil")]

/-- A revert of a plain tree. -/
theorem apply_crashSafe_plain :
    CrashSafe (smallCrates [] [] []) ⟨[str "w"]⟩ plainManifest (Machine.start evilFabric)
      (finalState (apply (smallCrates [] [] []) ⟨[str "w"]⟩ [str "w"] plainManifest false
        (Machine.start evilFabric))) := by
  apply apply_crashSafe (smallCrates [] [] []) ⟨[str "w"]⟩ (Machine.start evilFabric)
    plainManifest false (by decide +kernel)
  · intro fe hfe
    rw [List.mem_singleton.mp hfe]
    exact ⟨[str "d", str "a"], by decide, by decide, by decide⟩
  · decide

end Revert

end Respawn
