import Respawn.Loading

/-!
# What keeps a revert from succeeding

A revert replaces files and links, but not what stands in another kind of
place: an entry whose destination is a directory of the worktree, or lies under
one of its files, stops it (`Unblocked`).  Files are written before extra ones
are removed, so such a revert leaves the worktree partly reverted.  Where the
objects are intact and nothing is purged, that and the caps of `validate` are
all that can go wrong (`apply_succeeds_iff`).
-/

namespace Respawn

open ByteStr FileTree StateLogic

namespace Revert

variable (X : Crates) (st : Store)

/-- The chunks of an entry load and make up its content. -/
def Loads (fs : Fs) (fe : FileEntry) : Prop :=
  ∃ parts, List.Forall₂ (fun ch data => st.getObject X fs ch = .ok data) fe.chunks parts ∧
    X.blake3 parts.flatten = fe.content

/-- The objects a manifest refers to are intact, and none of its entries is
spelled as the place of one. -/
structure Intact (files : List FileEntry) (fs : Fs) : Prop where
  loads : ∀ fe ∈ files, Loads X st fs fe
  spared : ∀ fe ∈ files, ∀ c ∈ fe.chunks, ∀ f ∈ files,
    destination st.root f ≠ some (st.objectPath c)

/-- The names of the temporary files of a process are its own: nothing has
them, and no entry of the manifest is spelled so. -/
structure OwnNames (files : List FileEntry) (m : Machine) : Prop where
  vacant : ∀ n, m.fs.get (ownTmp (tmpDir st) m.pid n) = none
  apart : ∀ fe ∈ files, ∀ q, destination st.root fe = some q →
    ∀ n, ¬ ownTmp (tmpDir st) m.pid n <+: q

/-- Nothing is purged of what these entries hold. -/
def Unpurged (files : List FileEntry) (fs : Fs) : Prop :=
  ∃ tombs, tombstones X st fs = .ok tombs ∧
    ∀ fe ∈ files, ∀ t ∈ tombs, t.path ≠ fe.path ∧ t.content ≠ hashHex fe.content

/-- Nothing is in the way of these entries: no file and no link stands above a
destination and no directory at one, no path asks for a directory, and no
entry belongs above another. -/
structure Unblocked (files : List FileEntry) (fs : Fs) : Prop where
  tmp : fs.leaf (tmpDir st) = none
  plain : ∀ fe ∈ files, ∀ rel, sanitizeRel fe.path = .ok rel → rel.dirOnly = false
  way : ∀ fe ∈ files, ∀ q, destination st.root fe = some q →
    ∀ pre, pre <+: q → pre ≠ q → fs.leaf pre = none
  free : ∀ fe ∈ files, ∀ q, destination st.root fe = some q → fs.get q ≠ some .dir ∧ q ≠ tmpDir st
  apart : ∀ fe ∈ files, ∀ f ∈ files, ∀ q r, destination st.root fe = some q →
    destination st.root f = some r → q <+: r → q = r

variable {X st} {fs fs' : Fs} {files : List FileEntry} {fe : FileEntry} {m m' : Machine}

/-! ## Reading the objects -/

/-- An object reads the same where its file is the same. -/
theorem getObject_congr {c : Hash} (hreal : st.Real fs) (hreal' : st.Real fs')
    {data : Bytes} (hget : st.getObject X fs c = .ok data)
    (hsame : fs'.leaf (st.objectPath c) = fs.leaf (st.objectPath c)) :
    st.getObject X fs' c = .ok data := by
  have hin : st.fabricDir <+: st.objectPath c :=
    (Store.fabricDir_prefix_fanPath _ _).trans (List.dropLast_prefix _)
  have hnames : ∀ n ∈ st.objectPath c, ValidName n := Store.fanPath_names hreal (by decide) c
  unfold Store.getObject Store.readBlob at hget ⊢
  cases hread : fs.read (st.objectPath c) with
  | error e =>
      rw [hread] at hget
      cases e <;> cases hget
  | ok bytes =>
      obtain ⟨d, hd, hbytes⟩ := (hreal.read_eq_ok hin hnames).mp hread
      have hleaf := fs.leaf_eq_some.mpr ⟨hd, by simp⟩
      have hd' := (fs'.leaf_eq_some.mp (hsame.trans hleaf)).1
      rw [hread] at hget
      rw [(hreal'.read_eq_ok hin hnames).mpr ⟨d, hd', hbytes⟩]
      exact hget

/-- **The chunks that load are copied** into an open file that is no object. -/
theorem copyChunks_ok {f : Path} {chunks : List Hash} {parts : List Bytes} {old : FileData}
    (hreal : st.Real m.fs) (hf : m.fs.get f = some (.file old))
    (hother : ∀ c, f ≠ st.objectPath c)
    (hload : List.Forall₂ (fun ch data => st.getObject X m.fs ch = .ok data) chunks parts) :
    ∃ m', copyChunks X st f chunks m = .ok parts.flatten m' := by
  have hloop : ∀ (chunks : List Hash) (parts : List Bytes) (old : FileData) (m : Machine),
      st.Real m.fs → m.fs.get f = some (.file old) →
      List.Forall₂ (fun ch data => st.getObject X m.fs ch = .ok data) chunks parts →
      ∃ m', collect chunks (fun ch => do
        let data ← look fun fs => st.getObject X fs ch
        io (writeAll f data)
        pure (some data)) m = .ok parts m' := by
    intro chunks
    induction chunks with
    | nil =>
        intro parts old m _ _ hload
        cases hload
        exact ⟨m, rfl⟩
    | cons ch rest ih =>
        intro parts old m hreal hf hload
        cases hload with
        | @cons _ data _ parts hfirst hrest =>
            obtain ⟨w, d, hwrite, hget, _, hframe, _⟩ := writeAll_of_file (w := m.toWorld) hf data
            have hreal' : st.Real ({ m with toWorld := w } : Machine).fs := by
              apply hreal.of_frame
              intro q
              by_cases hq : q = f
              · refine Or.inr ⟨⟨d, hq ▸ hget⟩, ?_⟩
                intro heq
                rw [← hq, heq, hreal.dir] at hf
                cases hf
              · exact Or.inl ⟨q, Or.inl (hframe q hq)⟩
            have hkeep : ∀ c, w.fs.leaf (st.objectPath c) = m.fs.leaf (st.objectPath c) := by
              intro c
              unfold Fs.leaf
              rw [hframe _ (Ne.symm (hother c))]
            obtain ⟨m', htail⟩ := ih parts d { m with toWorld := w } hreal' hget
              (hrest.imp fun c data hc => getObject_congr hreal hreal' hc (hkeep c))
            have hbody : (do
                let data ← look fun fs => st.getObject X fs ch
                io (writeAll f data)
                pure (some data) : Sys (Option Bytes)) m =
                .ok (some data) { m with toWorld := w } := by
              refine bind_eq_ok.mpr ⟨data, m, look_eq_ok.mpr ⟨hfirst, rfl⟩, ?_⟩
              exact bind_eq_ok.mpr ⟨(), _, io_eq_ok.mpr ⟨w, hwrite, rfl⟩, rfl⟩
            exact ⟨m', bind_eq_ok.mpr ⟨_, _, hbody, bind_eq_ok.mpr ⟨parts, m', htail, rfl⟩⟩⟩
  obtain ⟨m', hrun⟩ := hloop chunks parts old m hreal hf hload
  exact ⟨m', bind_eq_ok.mpr ⟨parts, m', hrun, rfl⟩⟩

theorem tmpDir_names (hreal : st.Real fs) : ∀ n ∈ tmpDir st, ValidName n :=
  Purge.record_names hreal (by decide)

/-- A temporary file is no object. -/
theorem ownTmp_ne_objectPath (k n : Nat) (c : Hash) :
    ownTmp (tmpDir st) k n ≠ st.objectPath c := by
  intro heq
  simp only [ownTmp, tmpDir, Store.objectPath, Store.fanPath, List.append_assoc] at heq
  have hname := (List.cons.inj (List.append_cancel_left heq)).1
  exact absurd hname (by decide)

/-- The name of a temporary file is its place where the directory is there. -/
theorem resolve_ownTmp {fs : Fs} (hreal : st.Real fs) (hdir : fs.get (tmpDir st) = some .dir)
    (k n : Nat) : fs.resolve false (ownTmp (tmpDir st) k n) = .ok (ownTmp (tmpDir st) k n) := by
  apply Fs.resolve_of_parent _ (by simp [ownTmp]) (by rw [ownTmp, List.dropLast_concat]; exact hdir)
    (by simp)
  intro name hname
  rcases List.mem_append.mp hname with hname | hname
  · exact tmpDir_names hreal name hname
  · rw [List.mem_singleton.mp hname]
    exact validName_revert _ _

/-- The temporary directory is at its own path where it is a directory. -/
theorem ready_of_dir {fs : Fs} (hroot : fs.get st.root = some .dir)
    (hdir : fs.get (tmpDir st) = some .dir) : Ready st (tmpDir st) fs := by
  have hself : fs.resolve false (tmpDir st) = .ok (tmpDir st) := Fs.resolve_of_get hdir (by simp)
  exact ⟨hroot, fs, Fs.resolve_snoc_dot (fun _ _ hx => hx) hdir hself, Fs.Grows.refl _⟩

/-- **What loads assembles**, where the name of the temporary file is free. -/
theorem assembles_of_loads (hreal : st.Real m.fs) (hdir : m.fs.get (tmpDir st) = some .dir)
    (hvacant : m.fs.get (ownTmp (tmpDir st) m.pid m.tmpCounter) = none)
    (hloads : Loads X st m.fs fe) : Assembles X st fe m := by
  obtain ⟨parts, hparts, hcontent⟩ := hloads
  obtain ⟨w, hcreate⟩ : ∃ w, createNew (ownTmp (tmpDir st) m.pid m.tmpCounter) defaultMode
      m.toWorld = .ok (ownTmp (tmpDir st) m.pid m.tmpCounter) w := by
    unfold createNew
    rw [resolve_ownTmp hreal hdir]
    simp only [hvacant]
    exact ⟨_, rfl⟩
  obtain ⟨_, hopened⟩ := opened_of_createNew hcreate
  obtain ⟨old, hold, _⟩ := hopened.file
  have hreal' : st.Real ({ m with toWorld := w } : Machine).fs := by
    apply hreal.of_frame
    intro q
    by_cases hq : q = ownTmp (tmpDir st) m.pid m.tmpCounter
    · refine Or.inr ⟨⟨old, hq ▸ hold⟩, ?_⟩
      intro heq
      rw [← hq, heq, hreal.dir] at hvacant
      cases hvacant
    · exact Or.inl ⟨q, Or.inl (hopened.frame q hq)⟩
  have hkeep : ∀ c, w.fs.leaf (st.objectPath c) = m.fs.leaf (st.objectPath c) := by
    intro c
    unfold Fs.leaf
    rw [hopened.frame _ (Ne.symm (ownTmp_ne_objectPath _ _ c))]
  obtain ⟨m', hcopy⟩ := copyChunks_ok
    (m := { m with tmpCounter := m.tmpCounter + 1, toWorld := w }) hreal' hold
    (ownTmp_ne_objectPath _ _)
    (hparts.imp fun c data hc => getObject_congr hreal hreal' hc (hkeep c))
  refine ⟨parts.flatten, m', bind_eq_ok.mpr ⟨_, _, rfl, ?_⟩, hcontent⟩
  exact bind_eq_ok.mpr ⟨_, _, io_eq_ok.mpr ⟨w, hcreate, rfl⟩, hcopy⟩

/-! ## One entry -/

theorem destination_eq {rel : RelPath} (hpath : sanitizeRel fe.path = .ok rel) :
    destination st.root fe = some (st.root ++ rel.comps) := by
  simp only [destination, hpath]

/-- **An entry that nothing prevents is written**, or its content is there. -/
theorem writeEntry_goes {T : Path} {rel : RelPath} (hready : Ready st T m.fs)
    (hpath : sanitizeRel fe.path = .ok rel) (hclear : ClearWay m.fs st.root rel.comps)
    (hplain : rel.dirOnly = false) (hfree : m.fs.get (st.root ++ rel.comps) ≠ some .dir)
    (hassembles : ∀ m₁, io (createDirAll (st.root ++ rel.comps.dropLast)) m = .ok () m₁ →
      Assembles X st fe m₁) : ∃ out m', writeEntry X st st.root fe m = .ok out m' := by
  by_cases hdiffers : Differs X (st.root ++ rel.comps) fe m.fs
  · have hafter : After (writeEntry X st st.root fe m) _ _ := writeEntry_after hready
    cases hrun : writeEntry X st st.root fe m with
    | ok out m' => exact ⟨out, m', rfl⟩
    | error e m' =>
        exact absurd ⟨hpath, hclear, hplain, hfree, hdiffers, hassembles⟩
          ((hafter.error hrun).2 rel)
  · obtain ⟨m₁, hmake, hparent, hmade, _, _, hdest⟩ :=
      makeParents hready.root (valid_under hready.root rel) hclear rel.nonempty
    have hroot₁ : m₁.fs.get st.root = some .dir := hmade.adds.newDirs.grows.dirs _ hready.root
    obtain ⟨b, hneeds, hb⟩ : ∃ b, needsWrite X (rel.under st.root) fe m₁.fs = .ok b ∧ _ :=
      needsWrite_eq hroot₁ hparent
    have hnot : b = false := by
      cases b with
      | false => rfl
      | true =>
          rcases hb.mp rfl with hdir | hdiff
          · rw [hplain] at hdir
            cases hdir
          · unfold Differs at hdiff
            rw [hdest] at hdiff
            exact absurd hdiff hdiffers
    subst hnot
    refine ⟨none, m₁, bind_eq_ok.mpr ⟨rel, m, look_eq_ok.mpr ⟨?_, rfl⟩, ?_⟩⟩
    · exact (resolveDest_eq_ok hready.root).mpr ⟨hpath, hclear⟩
    · exact bind_eq_ok.mpr ⟨(), m₁, hmake,
        bind_eq_ok.mpr ⟨false, m₁, look_eq_ok.mpr ⟨hneeds, rfl⟩, rfl⟩⟩

/-- An entry changes its destination and makes directories above it. -/
theorem writeEntry_frame {T : Path} {out : Option Bytes} {q : Path} (hready : Ready st T m.fs)
    (h : writeEntry X st st.root fe m = .ok out m')
    (hdest : destination st.root fe = some q) :
    (∀ r, ¬ r <+: q → m'.fs.get r = m.fs.get r) ∧ m'.pid = m.pid := by
  obtain ⟨rel, m₀, hlook, hrest⟩ := bind_eq_ok.mp h
  obtain ⟨hok, rfl⟩ := look_eq_ok.mp hlook
  obtain ⟨hpath, hclear⟩ := (resolveDest_eq_ok hready.root).mp hok
  obtain rfl := Option.some.inj ((destination_eq hpath).symm.trans hdest)
  obtain ⟨m₁, hmake, hparent, hmade, hpid, _, _⟩ :=
    makeParents hready.root (valid_under hready.root rel) hclear rel.nonempty
  have habove : st.root ++ rel.comps.dropLast <+: st.root ++ rel.comps :=
    (List.prefix_append_right_inj _).mpr (List.dropLast_prefix _)
  have hdirs : ∀ r, ¬ r <+: st.root ++ rel.comps → m₁.fs.get r = m₀.fs.get r := by
    intro r hr
    rcases hmade.adds r with heq | ⟨hpre, _⟩
    · exact heq
    · exact absurd (hpre.trans habove) hr
  obtain ⟨_, m₁', hmake', hrest₁⟩ := bind_eq_ok.mp hrest
  cases hmake.symm.trans hmake'
  obtain ⟨needed, m₂, hneeded, hrest₂⟩ := bind_eq_ok.mp hrest₁
  obtain ⟨_, rfl⟩ := look_eq_ok.mp hneeded
  split at hrest₂
  · obtain ⟨_, m₃, hmat, hdone⟩ := bind_eq_ok.mp hrest₂
    cases hdone
    have hmaterial : After (materialize X st (rel.under st.root) fe m₂) _ _ :=
      materialize_after (hready.grow hmade.adds.newDirs.grows) hparent
    obtain ⟨_, _, hplaced⟩ := hmaterial.ok hmat
    refine ⟨?_, hplaced.ran.pid.trans hpid⟩
    intro r hr
    have hne : r ≠ st.root ++ rel.comps := fun heq => hr (heq ▸ List.prefix_refl _)
    exact (hplaced.frame r hne).trans (hdirs r hr)
  · cases hrest₂
    exact ⟨hdirs, hpid⟩

/-! ## The write pass -/

/-- Where the entries `done` of a revert that began in `fs` have been written. -/
structure Midway (st : Store) (k : Nat) (fs : Fs) (done : List FileEntry) (m : Machine) :
    Prop where
  ready : Ready st (tmpDir st) m.fs
  real : st.Real m.fs
  pid : m.pid = k
  -- outside the ways to their destinations nothing changed
  frame : ∀ q, (∀ f ∈ done, ∀ r, destination st.root f = some r → ¬ q <+: r) →
    m.fs.get q = fs.get q
  leaves : ∀ q, (∀ f ∈ done, destination st.root f ≠ some q) → m.fs.leaf q = fs.leaf q
  written : ∀ f ∈ done, ∀ r, destination st.root f = some r → ∃ d, m.fs.get r = some (.file d)

variable {done : List FileEntry}

/-- The next entry of an unblocked revert can be written. -/
theorem Midway.goes (h : Midway st m.pid m.fs done m') (hreal : st.Real m.fs)
    (hclear : Unblocked st files m.fs) (hintact : Intact X st files m.fs)
    (hown : OwnNames st files m)
    (hdone : ∀ f ∈ done, f ∈ files) (hfe : fe ∈ files) {rel : RelPath}
    (hpath : sanitizeRel fe.path = .ok rel) :
    ∃ out t, writeEntry X st st.root fe m' = .ok out t := by
  have hdest : destination st.root fe = some (st.root ++ rel.comps) := destination_eq hpath
  have hway : ClearWay m'.fs st.root rel.comps := by
    intro pre hpre hne
    have hproper : st.root ++ pre ≠ st.root ++ rel.comps := fun heq =>
      hne (List.append_cancel_left heq)
    have hup : st.root ++ pre <+: st.root ++ rel.comps :=
      (List.prefix_append_right_inj _).mpr hpre
    have hleaf : m'.fs.leaf (st.root ++ pre) = none := by
      rw [h.leaves, hclear.way fe hfe _ hdest _ hup hproper]
      intro f hf hat
      exact hproper (hclear.apart f (hdone f hf) fe hfe _ _ hat hdest hup)
    exact (m'.fs.leaf_eq_none.mp hleaf).symm
  have hfree : m'.fs.get (st.root ++ rel.comps) ≠ some .dir := by
    by_cases hon : ∃ f ∈ done, ∃ r, destination st.root f = some r ∧ st.root ++ rel.comps <+: r
    · obtain ⟨f, hf, r, hr, hup⟩ := hon
      have heq := hclear.apart fe hfe f (hdone f hf) _ _ hdest hr hup
      obtain ⟨d, hd⟩ := h.written f hf r hr
      rw [heq, hd]
      simp
    · rw [h.frame]
      · exact (hclear.free fe hfe _ hdest).1
      · intro f hf r hr hup
        exact hon ⟨f, hf, r, hr, hup⟩
  apply writeEntry_goes h.ready hpath hway (hclear.plain fe hfe rel hpath) hfree
  intro m₁ hmake
  -- making the parents leaves the objects and the temporary name alone
  obtain ⟨m₁', hmake', _, hmade, hpid, _⟩ :=
    makeParents h.ready.root (valid_under h.ready.root rel) hway rel.nonempty
  cases hmake.symm.trans hmake'
  have hgrows := hmade.adds.newDirs.grows
  have hreal₁ := h.real.grow hgrows
  have hvacant : m₁.fs.get (ownTmp (tmpDir st) m₁.pid m₁.tmpCounter) = none := by
    rw [hpid, h.pid]
    have hother : m'.fs.get (ownTmp (tmpDir st) m.pid m₁.tmpCounter) = none := by
      rw [h.frame _ fun f hf r hr => hown.apart f (hdone f hf) r hr _]
      exact hown.vacant _
    rcases hmade.adds (ownTmp (tmpDir st) m.pid m₁.tmpCounter) with heq | ⟨hup, _⟩
    · rw [heq, hother]
    · refine absurd ?_ (hown.apart fe hfe _ hdest m₁.tmpCounter)
      exact hup.trans ((List.prefix_append_right_inj _).mpr (List.dropLast_prefix _))
  apply assembles_of_loads hreal₁ (hgrows.dirs _ h.ready.dir) hvacant
  obtain ⟨parts, hparts, hcontent⟩ := hintact.loads fe hfe
  refine ⟨parts, ?_, hcontent⟩
  have hsame : ∀ c ∈ fe.chunks, m₁.fs.leaf (st.objectPath c) = m.fs.leaf (st.objectPath c) := by
    intro c hc
    rw [hmade.adds.newDirs.leaf_eq, h.leaves]
    exact fun f hf => hintact.spared fe hfe c hc f (hdone f hf)
  exact ((List.forall₂_and_left _ _).mpr ⟨hsame, hparts⟩).imp fun c data hc =>
    getObject_congr hreal hreal₁ hc.2 hc.1

/-- Once it is written the revert is one entry further. -/
theorem Midway.next (h : Midway st m.pid m.fs done m') {out : Option Bytes} {t : Machine}
    (hrun : writeEntry X st st.root fe m' = .ok out t) :
    Midway st m.pid m.fs (done ++ [fe]) t := by
  obtain ⟨hentered, rel, hwritten, _⟩ := (writeEntry_after h.ready).ok hrun
  have hdest : destination st.root fe = some (st.root ++ rel.comps) :=
    destination_eq hwritten.path
  obtain ⟨hframe, hpid⟩ := writeEntry_frame h.ready hrun hdest
  refine ⟨h.ready.grow hentered.grows, h.real.grow hentered.grows, hpid.trans h.pid, ?_, ?_, ?_⟩
  · intro q hq
    rw [hframe q (hq fe (by simp) _ hdest)]
    exact h.frame q fun f hf => hq f (List.mem_append_left _ hf)
  · intro q hq
    rw [hwritten.leaves q fun heq => hq fe (by simp) (heq ▸ hdest)]
    exact h.leaves q fun f hf => hq f (List.mem_append_left _ hf)
  · intro f hf r hr
    by_cases hat : r = st.root ++ rel.comps
    · obtain ⟨d, hd, _⟩ := hwritten.content
      exact ⟨d, hat ▸ hd⟩
    · rcases List.mem_append.mp hf with hf | hf
      · obtain ⟨d, hd⟩ := h.written f hf r hr
        have hleaf := (hwritten.leaves r hat).trans (m'.fs.leaf_eq_some.mpr ⟨hd, by simp⟩)
        exact ⟨d, (t.fs.leaf_eq_some.mp hleaf).1⟩
      · rw [List.mem_singleton.mp hf, hdest] at hr
        exact absurd (Option.some.inj hr).symm hat

/-- **An unblocked write pass gets through.** -/
theorem writePass_goes (hready : Ready st (tmpDir st) m.fs) (hreal : st.Real m.fs)
    (hpaths : ∀ fe ∈ files, ∃ rel, sanitizeRel fe.path = .ok rel)
    (hclear : Unblocked st files m.fs) (hintact : Intact X st files m.fs)
    (hown : OwnNames st files m) : ∃ outs m', writePass X st st.root files m = .ok outs m' := by
  have hrun : ∀ done, done <+: files →
      ∃ outs t, writePass X st st.root done m = .ok outs t ∧ Midway st m.pid m.fs done t := by
    intro done
    induction done using List.reverseRecOn with
    | nil =>
        intro _
        exact ⟨[], m, rfl, hready, hreal, rfl, fun _ _ => rfl, fun _ _ => rfl, by simp⟩
    | append_singleton done fe ih =>
        intro hpre
        obtain ⟨outs, t, hfirst, hmid⟩ := ih ((List.prefix_append done [fe]).trans hpre)
        have hin : ∀ f ∈ done ++ [fe], f ∈ files := fun f hf => hpre.subset hf
        have hfe : fe ∈ files := hin fe (by simp)
        obtain ⟨rel, hpath⟩ := hpaths fe hfe
        obtain ⟨out, u, hentry⟩ := hmid.goes hreal hclear hintact hown
          (fun f hf => hin f (List.mem_append_left _ hf)) hfe hpath
        refine ⟨_, u, collect_append_eq_ok.mpr ⟨outs, out.toList ++ [], t, hfirst, ?_, rfl⟩,
          hmid.next hentry⟩
        exact bind_eq_ok.mpr ⟨out, u, hentry, bind_eq_ok.mpr ⟨[], u, rfl, rfl⟩⟩
  obtain ⟨outs, m', h, _⟩ := hrun files (List.prefix_refl _)
  exact ⟨outs, m', h⟩

/-- **After a write pass that got through** every destination is a file, so
nothing was in the way. -/
theorem unblocked_of_writePass {T : Path} {outs : List Bytes} (hready : Ready st T m.fs)
    (htmp : m.fs.get (tmpDir st) = some .dir)
    (h : writePass X st st.root files m = .ok outs m') : Unblocked st files m.fs := by
  obtain ⟨hrestored, hgrows, hplain⟩ := writePass_ok hready h
  have hfile : ∀ fe ∈ files, ∀ q, destination st.root fe = some q →
      ∃ d, m'.fs.get q = some (.file d) := by
    intro fe hfe q hq
    have hat := hrestored q
    cases hlast : lastAt st.root files q with
    | none => exact absurd hq (lastAt_eq_none.mp hlast fe hfe)
    | some f =>
        rw [hlast] at hat
        obtain ⟨d, hd, _⟩ := hat
        exact ⟨d, (m'.fs.leaf_eq_some.mp hd).1⟩
  have habove : ∀ fe ∈ files, ∀ q, destination st.root fe = some q → ∀ pre, pre <+: q →
      pre ≠ q → m'.fs.get pre = some .dir := by
    intro fe hfe q hq pre hpre hne
    obtain ⟨d, hd⟩ := hfile fe hfe q hq
    exact m'.fs.get_of_prefix hd hpre hne
  have hnotdir : ∀ fe ∈ files, ∀ q, destination st.root fe = some q →
      m.fs.get q ≠ some .dir := by
    intro fe hfe q hq hdir
    obtain ⟨d, hd⟩ := hfile fe hfe q hq
    rw [hgrows.dirs q hdir] at hd
    cases hd
  refine ⟨m.fs.leaf_eq_none.mpr (Or.inr htmp), ?_, ?_, ?_, ?_⟩
  · intro fe hfe rel hrel
    obtain ⟨rel', hrel', hdir⟩ := hplain fe hfe
    rw [hrel] at hrel'
    exact Except.ok.inj hrel' ▸ hdir
  · intro fe hfe q hq pre hpre hne
    have hdir := habove fe hfe q hq pre hpre hne
    cases hleaf : m.fs.leaf pre with
    | none => rfl
    | some x =>
        have hnone : m'.fs.leaf pre = none := m'.fs.leaf_eq_none.mpr (Or.inr hdir)
        rcases hgrows.leaves pre x hleaf with hx | ⟨d, hd⟩
        · exact hx.symm.trans hnone
        · cases hd.symm.trans hnone
  · intro fe hfe q hq
    refine ⟨hnotdir fe hfe q hq, ?_⟩
    intro heq
    exact hnotdir fe hfe q hq (heq ▸ htmp)
  · intro fe hfe f hf q r hq hr hpre
    by_contra hne
    obtain ⟨d, hd⟩ := hfile fe hfe q hq
    rw [habove f hf r hr q hpre hne] at hd
    cases hd

/-! ## The whole revert -/

/-- What is not purged passes the check. -/
theorem checkTombstones_of_unpurged {tombs : List Tombstone}
    (h : ∀ fe ∈ files, ∀ t ∈ tombs, t.path ≠ fe.path ∧ t.content ≠ hashHex fe.content) :
    checkTombstones tombs files = .ok () := by
  induction files with
  | nil => rfl
  | cons fe rest ih =>
      unfold checkTombstones
      rw [if_neg, ih fun f hf => h f (List.mem_cons_of_mem _ hf)]
      intro hany
      obtain ⟨t, ht, hmatch⟩ := List.any_eq_true.mp hany
      obtain ⟨hpath, hcontent⟩ := h fe (by simp) t ht
      rcases of_decide_eq_true hmatch with heq | heq
      · exact hpath heq
      · exact hcontent heq

/-- Making the temporary directory changes nothing else. -/
theorem tmpDir_made {w : World} (hreal : st.Real m.fs)
    (hmake : createDirAll (tmpDir st) m.toWorld = .ok () w) :
    w.fs.get (tmpDir st) = some .dir ∧ Fs.Grows m.fs w.fs ∧
      ∀ q, w.fs.get q = m.fs.get q ∨ (q = tmpDir st ∧ m.fs.get q = none) := by
  have hin : st.fabricDir <+: tmpDir st := List.prefix_append _ _
  obtain ⟨hmade, hdir⟩ := (createDirAll_after (tmpDir_names hreal) fun pre hpre =>
    hreal.noLink hin hpre).ok hmake
  refine ⟨hdir, hmade.adds.newDirs.grows, ?_⟩
  intro q
  rcases hmade.adds q with heq | ⟨hpre, hnone, _⟩
  · exact Or.inl heq
  · right
    refine ⟨?_, hnone⟩
    rcases List.prefix_concat_iff.mp hpre with heq | hup
    · exact heq
    · rw [Fs.dir_of_prefix hreal.dir hup] at hnone
      cases hnone

/-- The temporary directory is all that is made before the write pass. -/
theorem Unblocked.started {w : World} (h : Unblocked st files m.fs) (hreal : st.Real m.fs)
    (hmake : createDirAll (tmpDir st) m.toWorld = .ok () w) : Unblocked st files w.fs := by
  obtain ⟨hdir, _, hsame⟩ := tmpDir_made hreal hmake
  have hleaf : ∀ q, w.fs.leaf q = none ↔ m.fs.leaf q = none := by
    intro q
    rcases hsame q with heq | ⟨rfl, hnone⟩
    · unfold Fs.leaf
      rw [heq]
    · exact iff_of_true (w.fs.leaf_eq_none.mpr (Or.inr hdir)) (m.fs.leaf_eq_none.mpr (Or.inl hnone))
  refine ⟨(hleaf _).mpr h.tmp, h.plain, ?_, ?_, h.apart⟩
  · intro fe hfe q hq pre hpre hne
    exact (hleaf pre).mpr (h.way fe hfe q hq pre hpre hne)
  · intro fe hfe q hq
    obtain ⟨hfree, hne⟩ := h.free fe hfe q hq
    refine ⟨?_, hne⟩
    rcases hsame q with heq | ⟨heq, _⟩
    · rw [heq]
      exact hfree
    · exact absurd heq hne

/-- What is not in the way once it is made was not in the way before. -/
theorem Unblocked.before {w : World} (h : Unblocked st files w.fs) (hreal : st.Real m.fs)
    (hmake : createDirAll (tmpDir st) m.toWorld = .ok () w) : Unblocked st files m.fs := by
  obtain ⟨_, _, hsame⟩ := tmpDir_made hreal hmake
  have hleaf : ∀ q, w.fs.leaf q = none → m.fs.leaf q = none := by
    intro q hq
    rcases hsame q with heq | ⟨_, hnone⟩
    · unfold Fs.leaf at hq ⊢
      rw [← heq]
      exact hq
    · exact m.fs.leaf_eq_none.mpr (Or.inl hnone)
  refine ⟨hleaf _ h.tmp, h.plain, ?_, ?_, h.apart⟩
  · intro fe hfe q hq pre hpre hne
    exact hleaf pre (h.way fe hfe q hq pre hpre hne)
  · intro fe hfe q hq
    obtain ⟨hfree, hne⟩ := h.free fe hfe q hq
    refine ⟨?_, hne⟩
    rcases hsame q with heq | ⟨heq, _⟩
    · rw [← heq]
      exact hfree
    · exact absurd heq hne

/-- The name of a temporary file is still free then. -/
theorem OwnNames.started {w : World} (h : OwnNames st files m) (hreal : st.Real m.fs)
    (hmake : createDirAll (tmpDir st) m.toWorld = .ok () w) :
    OwnNames st files { m with toWorld := w } := by
  obtain ⟨_, _, hsame⟩ := tmpDir_made hreal hmake
  refine ⟨?_, h.apart⟩
  intro n
  rcases hsame (ownTmp (tmpDir st) m.pid n) with heq | ⟨heq, _⟩
  · exact heq.trans (h.vacant n)
  · have hlen := congrArg List.length heq
    simp [ownTmp] at hlen

/-- The objects are there when the revert starts to write. -/
theorem Intact.started {w : World} (h : Intact X st files m.fs) (hreal : st.Real m.fs)
    (hmake : createDirAll (tmpDir st) m.toWorld = .ok () w) : Intact X st files w.fs := by
  obtain ⟨_, hgrows, hsame⟩ := tmpDir_made hreal hmake
  refine ⟨?_, h.spared⟩
  intro fe hfe
  obtain ⟨parts, hparts, hcontent⟩ := h.loads fe hfe
  refine ⟨parts, hparts.imp fun c data hc => ?_, hcontent⟩
  apply getObject_congr hreal (hreal.grow hgrows) hc
  rcases hsame (st.objectPath c) with heq | ⟨heq, _⟩
  · unfold Fs.leaf
    rw [heq]
  · have hlen := congrArg List.length heq
    simp [tmpDir, Store.objectPath, Store.fanPath] at hlen

/-- A revert of valid entries gets through exactly when nothing is in the way. -/
theorem apply_goes_iff {mf : Manifest} {keepExtra : Bool} (hreal : st.Real m.fs)
    (hvalid : mf.validate = .ok ()) (hintact : Intact X st mf.files m.fs)
    (hunpurged : Unpurged X st mf.files m.fs) (hown : OwnNames st mf.files m) :
    (∃ r m', apply X st st.root mf keepExtra m = .ok r m') ↔ Unblocked st mf.files m.fs := by
  have hroot : m.fs.get st.root = some .dir :=
    Fs.dir_of_prefix hreal.dir (List.prefix_append _ _)
  have hchecked : precheck X st mf m.fs = .ok () := by
    obtain ⟨tombs, htombs, hnone⟩ := hunpurged
    unfold precheck
    rw [hvalid, htombs]
    exact checkTombstones_of_unpurged hnone
  constructor
  · intro h
    obtain ⟨r, m', h⟩ := h
    obtain ⟨_, m₀, hcheck, hrest⟩ := bind_eq_ok.mp h
    obtain ⟨_, rfl⟩ := look_eq_ok.mp hcheck
    obtain ⟨_, m₁, hmade, hpasses⟩ := bind_eq_ok.mp hrest
    obtain ⟨outs, m₂, hwrite, _⟩ := bind_eq_ok.mp hpasses
    obtain ⟨w, hmake, rfl⟩ := io_eq_ok.mp hmade
    obtain ⟨_, T, hT⟩ := createDirAll_made.ok hmake
    have hready : Ready st T w.fs := Started.ready ⟨hchecked, hmade, hT⟩ hroot
    exact (unblocked_of_writePass hready (tmpDir_made hreal hmake).1 hwrite).before hreal hmake
  · intro h
    have hup : ∀ pre, pre <+: tmpDir st → m.fs.get pre = some .dir ∨ m.fs.get pre = none := by
      intro pre hpre
      rcases List.prefix_concat_iff.mp hpre with rfl | hin
      · exact (m.fs.leaf_eq_none.mp h.tmp).symm
      · exact Or.inl (Fs.dir_of_prefix hreal.dir hin)
    obtain ⟨w, hmake⟩ := createDirAll_ok (w := m.toWorld) (tmpDir_names hreal) hup
    obtain ⟨hdir, hgrows, _⟩ := tmpDir_made hreal hmake
    have hready : Ready st (tmpDir st) w.fs := ready_of_dir (hgrows.dirs _ hroot) hdir
    obtain ⟨outs, m₂, hwrite⟩ := writePass_goes (m := { m with toWorld := w }) hready
      (hreal.grow hgrows) (fun fe hfe => mf.sanitizeRel_of_validate hvalid hfe)
      (h.started hreal hmake) (hintact.started hreal hmake) (hown.started hreal hmake)
    -- the passes after it cannot fail
    have hroot₂ : m₂.fs.get st.root = some .dir :=
      (writePass_ok hready hwrite).2.1.dirs _ hready.root
    have htidy : After (tidy st.root mf keepExtra outs m₂) _ _ := tidy_after hroot₂
    cases hrun : tidy st.root mf keepExtra outs m₂ with
    | error e m' => exact (htidy.error hrun).elim
    | ok r m' =>
        refine ⟨r, m', ?_⟩
        rw [apply_of_made hchecked (io_eq_ok.mpr ⟨w, hmake, rfl⟩)]
        exact bind_eq_ok.mpr ⟨outs, m₂, hwrite, hrun⟩

/-- **When a revert to a snapshot succeeds.**  For a manifest that `create`
built of some tree and a fabric that has its objects and nothing of it purged:
exactly when the manifest is within the caps and nothing is in the way of its
entries. -/
theorem apply_succeeds_iff {st₀ : Store} {root : Path} {message : Bytes} {actor : Option Bytes}
    {s s' : Machine} {mf : Manifest} {keepExtra : Bool}
    (hinside : ∀ rel, st₀.fabricDir <+: root ++ rel → Snapshot.excluded rel = true)
    (hreal₀ : st₀.Real s.fs)
    (hbuild : Snapshot.buildManifest X st₀ root message actor s = .ok mf s')
    (hreal : st.Real m.fs) (hintact : Intact X st mf.files m.fs)
    (hunpurged : Unpurged X st mf.files m.fs) (hown : OwnNames st mf.files m) :
    (∃ r m', apply X st st.root mf keepExtra m = .ok r m') ↔
      mf.files.length ≤ MAX_MANIFEST_FILES ∧ chunkCount mf.files ≤ MAX_MANIFEST_CHUNKS ∧
        Unblocked st mf.files m.fs := by
  obtain ⟨_, _, _, _, hmf, hproper, _⟩ := Snapshot.buildManifest_ok hinside hreal₀ hbuild
  have hvalid : mf.validate = .ok () ↔
      mf.files.length ≤ MAX_MANIFEST_FILES ∧ chunkCount mf.files ≤ MAX_MANIFEST_CHUNKS :=
    Manifest.validate_iff (by rw [hmf]; rfl) hproper
  rw [← and_assoc, ← hvalid]
  constructor
  · intro h
    obtain ⟨r, m', hrun⟩ := h
    have hok : mf.validate = .ok () := by
      obtain ⟨_, m₀, hcheck, _⟩ := bind_eq_ok.mp hrun
      obtain ⟨hchecked, rfl⟩ := look_eq_ok.mp hcheck
      unfold precheck at hchecked
      split at hchecked
      · cases hchecked
      case _ hok => exact hok
    exact ⟨hok, (apply_goes_iff hreal hok hintact hunpurged hown).mp ⟨r, m', hrun⟩⟩
  · intro h
    exact (apply_goes_iff hreal h.1 hintact hunpurged hown).mpr h.2

/-- Every revert to a snapshot of regular files gets through, from any tree of
regular files. -/
def AlwaysReverts (X : Crates) (st : Store) : Prop :=
  ∀ (message : Bytes) (actor : Option Bytes) (s s' m : Machine) (mf : Manifest),
    st.Real s.fs → (∀ q t, s.fs.get q ≠ some (.symlink t)) →
    Snapshot.buildManifest X st st.root message actor s = .ok mf s' →
    st.Real m.fs → (∀ q t, m.fs.get q ≠ some (.symlink t)) →
    Intact X st mf.files m.fs → Unpurged X st mf.files m.fs → OwnNames st mf.files m →
    ∃ r m', apply X st st.root mf false m = .ok r m'

/-! ## A path that changes its kind -/

/-- A tree with a file in a directory. -/
def nestedTree : Fs :=
  Fs.build (Store.fabricNodes ⟨[str "w"]⟩ [] ++ [([str "w", str "a"], .dir),
    ([str "w", str "a", str "b"], Store.plainFile (str "B"))])

/-- What `create` makes of it. -/
def nestedManifest : Manifest := smallManifest none none [smallEntry (str "a/b") (str "B")]

/-- The tree later: a file where the directory was. -/
def flatTree : Fs :=
  Fs.build (Store.fabricNodes ⟨[str "w"]⟩ [] ++
    Store.blobNodes ⟨[str "w"]⟩ (str "objects") (padHash (str "B")) (str "B") ++
    [([str "w", str "a"], Store.plainFile (str "A"))])

/-- The tree later, the file in it changed. -/
def editedTree : Fs :=
  Fs.build (Store.fabricNodes ⟨[str "w"]⟩ [] ++
    Store.blobNodes ⟨[str "w"]⟩ (str "objects") (padHash (str "B")) (str "B") ++
    [([str "w", str "a"], .dir), ([str "w", str "a", str "b"], Store.plainFile (str "C"))])

theorem nested_built : ∃ s', Snapshot.buildManifest (smallCrates [] [] []) ⟨[str "w"]⟩ [str "w"]
    [] none (Machine.start nestedTree) = .ok nestedManifest s' :=
  ⟨_, eq_ok_of_yields (by decide +kernel)⟩

/-- The entries of the manifest have one destination. -/
theorem nested_destination {fe : FileEntry} (hfe : fe ∈ nestedManifest.files) {q : Path}
    (hq : destination [str "w"] fe = some q) : q = [str "w", str "a", str "b"] := by
  have hwhere : destination [str "w"] (smallEntry (str "a/b") (str "B")) =
      some [str "w", str "a", str "b"] := by decide +kernel
  rw [List.mem_singleton.mp hfe, hwhere] at hq
  exact (Option.some.inj hq).symm

/-- Their object loads. -/
theorem nested_intact {fs : Fs} (hload : (Store.getObject (smallCrates [] [] []) ⟨[str "w"]⟩ fs
      (padHash (str "B"))).toOption = some (str "B")) :
    Intact (smallCrates [] [] []) ⟨[str "w"]⟩ nestedManifest.files fs := by
  refine ⟨?_, ?_⟩
  · intro fe hfe
    rw [List.mem_singleton.mp hfe]
    exact ⟨[str "B"], .cons (eq_ok_of_toOption hload) .nil, by decide +kernel⟩
  · intro fe _ c _ f hf hat
    have hlen := congrArg List.length (nested_destination hf hat)
    simp [Store.objectPath, Store.fanPath, Store.fabricDir] at hlen

/-- No temporary file has a name of theirs. -/
theorem nested_ownNames {fs : Fs}
    (hkeys : ∀ k ∈ fs.nodes.keys, ¬ tmpDir ⟨[str "w"]⟩ <+: k) :
    OwnNames ⟨[str "w"]⟩ nestedManifest.files (Machine.start fs) := by
  refine ⟨?_, ?_⟩
  · intro n
    by_contra hsome
    obtain ⟨x, hx⟩ := Option.ne_none_iff_exists'.mp hsome
    exact hkeys _ (fs.mem_keys hx) (List.prefix_append _ _)
  · intro fe hfe q hq n hpre
    have hlen := hpre.length_le
    rw [nested_destination hfe hq] at hlen
    simp [ownTmp, tmpDir, Store.fabricDir] at hlen

theorem nested_unpurged {fs : Fs}
    (hnone : (tombstones (smallCrates [] [] []) ⟨[str "w"]⟩ fs).toOption = some []) :
    Unpurged (smallCrates [] [] []) ⟨[str "w"]⟩ nestedManifest.files fs :=
  ⟨[], eq_ok_of_toOption hnone, fun _ _ _ ht => absurd ht (by simp)⟩

/-- A revert from a tree of the same kind succeeds. -/
theorem apply_succeeds_edited : ∃ r m', apply (smallCrates [] [] []) ⟨[str "w"]⟩ [str "w"]
    nestedManifest false (Machine.start editedTree) = .ok r m' := by
  obtain ⟨s', hbuild⟩ := nested_built
  refine (apply_succeeds_iff (fun _ => Snapshot.excluded_of_fabric)
    (Store.Real.of_keys (by decide +kernel) (by decide +kernel)) hbuild
    (Store.Real.of_keys (by decide +kernel) (by decide +kernel))
    (nested_intact (by decide +kernel)) (nested_unpurged (by decide +kernel))
    (nested_ownNames (by decide +kernel))).mpr ⟨by decide, by decide, ?_⟩
  have hways : ∀ pre ∈ [str "w", str "a", str "b"].inits, pre ≠ [str "w", str "a", str "b"] →
      editedTree.leaf pre = none := by decide +kernel
  refine ⟨by decide +kernel, ?_, ?_, ?_, ?_⟩
  · intro fe hfe rel hrel
    have hplain : ((sanitizeRel (str "a/b")).toOption.map RelPath.dirOnly) = some false := by
      decide +kernel
    rw [List.mem_singleton.mp hfe] at hrel
    have hpath : sanitizeRel (str "a/b") = .ok rel := hrel
    rw [hpath] at hplain
    exact Option.some.inj hplain
  · intro fe hfe q hq pre hpre hne
    rw [nested_destination hfe hq] at hpre hne
    exact hways pre (List.mem_inits pre _ |>.mpr hpre) hne
  · intro fe hfe q hq
    rw [nested_destination hfe hq]
    exact ⟨by decide +kernel, by decide⟩
  · intro fe hfe f hf q r hq hr _
    rw [nested_destination hfe hq, nested_destination hf hr]

/-- A revert across a change of kind does not. -/
theorem apply_stopped : ¬ AlwaysReverts (smallCrates [] [] []) ⟨[str "w"]⟩ := by
  intro halways
  obtain ⟨s', hbuild⟩ := nested_built
  obtain ⟨r, m', hrun⟩ := halways [] none (Machine.start nestedTree) s' (Machine.start flatTree)
    nestedManifest (Store.Real.of_keys (by decide +kernel) (by decide +kernel))
    (Store.noLink_of_keys (by decide +kernel)) hbuild
    (Store.Real.of_keys (by decide +kernel) (by decide +kernel))
    (Store.noLink_of_keys (by decide +kernel))
    (nested_intact (by decide +kernel)) (nested_unpurged (by decide +kernel))
    (nested_ownNames (by decide +kernel))
  have hfails : succeeded (apply (smallCrates [] [] []) ⟨[str "w"]⟩ [str "w"] nestedManifest false
      (Machine.start flatTree)) = false := by decide +kernel
  rw [hrun] at hfails
  cases hfails

end Revert

end Respawn
