import Respawn.Obstacles

/-!
# What a revert leaves in its temporary directory

Every exit of the write pass, from any chunk of any entry: the temporary file is
renamed away where the entry is placed and removed where the content does not
match, but an object that cannot be read ends the revert with the file still
there.

* `writeEntry_leaves` — what one entry leaves, by what holds before its turn;
* `apply_keepsTmp_iff` — when a revert that succeeds, or fails for its objects,
  leaves the names in the temporary directory as they were.
-/

namespace Respawn

open ByteStr FileTree StateLogic

namespace Revert

variable (X : Crates) (st : Store)

/-! ## Ends of a revert -/

/-- The name stands in the temporary directory. -/
def InTmp (fs : Fs) (n : Name) : Prop := fs.get (tmpDir st ++ [n]) ≠ none

/-- A write pass from `m` comes to the entry, in the state `s`. -/
def Reached (files : List FileEntry) (m : Machine) (fe : FileEntry) (s : Machine) : Prop :=
  ∃ pre post outs, files = pre ++ fe :: post ∧ writePass X st st.root pre m = .ok outs s

/-- The turn of the entry comes in the state `s` of a revert that began in `m`. -/
def Turn (mf : Manifest) (m : Machine) (fe : FileEntry) (s : Machine) : Prop :=
  ∃ m₁, precheck X st mf m.fs = .ok () ∧ io (createDirAll (tmpDir st)) m = .ok () m₁ ∧
    Reached X st mf.files m₁ fe s

/-- The entry is to be written, its temporary file `f` was opened in `t`, and
copying the chunks from there does not give the entry's content. -/
def CopyFails (fe : FileEntry) (s : Machine) : Prop :=
  ∃ rel m₁ f t, resolveDest st.root fe.path s.fs = .ok rel ∧
    io (createDirAll (st.root ++ rel.comps.dropLast)) s = .ok () m₁ ∧
    needsWrite X (rel.under st.root) fe m₁.fs = .ok true ∧
    (do
      let tmp ← tmpPath (tmpDir st) (str "revert")
      io (createNew tmp defaultMode) : Sys Path) m₁ = .ok f t ∧
    ¬ ∃ data u, copyChunks X st f fe.chunks t = .ok data u ∧ X.blake3 data = fe.content

/-- **No temporary files are left**: after success, and after a failure that an
object or a content mismatch causes, the same names stand in the temporary
directory. -/
def KeepsTmp (mf : Manifest) (keepExtra : Bool) (m : Machine) : Prop :=
  ∀ n, match apply X st st.root mf keepExtra m with
    | .ok _ m' => InTmp st m'.fs n ↔ InTmp st m.fs n
    | .error _ m' => (∃ fe s, Turn X st mf m fe s ∧ CopyFails X st fe s) →
        (InTmp st m'.fs n ↔ InTmp st m.fs n)

/-! ## What decides before the turn -/

/-- The entry is to be written and the name of its temporary file is free. -/
structure Begun (fe : FileEntry) (rel : RelPath) (s : Machine) : Prop where
  path : sanitizeRel fe.path = .ok rel
  clear : ClearWay s.fs st.root rel.comps
  needed : rel.dirOnly = true ∨ Differs X (st.root ++ rel.comps) fe s.fs
  vacant : s.fs.get (ownTmp (tmpDir st) s.pid s.tmpCounter) = none
  apart : ¬ ownTmp (tmpDir st) s.pid s.tmpCounter <+: st.root ++ rel.comps.dropLast

/-- The entry is to be written and one of its chunks cannot be read. -/
def Unreadable (fe : FileEntry) (s : Machine) : Prop :=
  ∃ rel, Begun X st fe rel s ∧ ∃ c ∈ fe.chunks, ∀ data, st.getObject X s.fs c ≠ .ok data

/-- Something else than its objects stops the entry: its way or the name of
its temporary file is taken, or its content has nowhere to go. -/
def Obstructed (fe : FileEntry) (s : Machine) : Prop :=
  ∀ rel, sanitizeRel fe.path = .ok rel → ClearWay s.fs st.root rel.comps →
    (rel.dirOnly = true ∨ Differs X (st.root ++ rel.comps) fe s.fs) ∧
      (Begun X st fe rel s → Loads X st s.fs fe ∧
        (rel.dirOnly = true ∨ s.fs.get (st.root ++ rel.comps) = some .dir))

/-- The entry belongs in the temporary directory and is the first to put the
name `n` there, by a directory made for it or by its own file. -/
def Adds (fe : FileEntry) (s : Machine) (n : Name) : Prop :=
  ∃ rel, sanitizeRel fe.path = .ok rel ∧ ClearWay s.fs st.root rel.comps ∧
    s.fs.get (tmpDir st ++ [n]) = none ∧
    (tmpDir st ++ [n] <+: st.root ++ rel.comps.dropLast ∨
      (tmpDir st ++ [n] = st.root ++ rel.comps ∧ rel.dirOnly = false ∧
        Begun X st fe rel s ∧ Loads X st s.fs fe))

/-- No entry whose turn comes needs a chunk that cannot be read, and none adds a
name of its own unless one is obstructed. -/
def LeavesNothing (turn : FileEntry → Machine → Prop) : Prop :=
  (∀ fe s, turn fe s → ¬ Unreadable X st fe s) ∧
    ((∃ fe s n, turn fe s ∧ Adds X st fe s n) → ∃ fe s, turn fe s ∧ Obstructed X st fe s)

variable {X st} {fe : FileEntry} {m m' : Machine}

/-! ## Copying the chunks -/

/-- Where the copying gets through, the chunks load. -/
theorem loaded_of_copyChunks {f : Path} {chunks : List Hash} {data : Bytes} {old : FileData}
    (hreal : st.Real m.fs) (hf : m.fs.get f = some (.file old))
    (hother : ∀ c, f ≠ st.objectPath c) (h : copyChunks X st f chunks m = .ok data m') :
    ∃ parts, List.Forall₂ (fun ch data => st.getObject X m.fs ch = .ok data) chunks parts ∧
      parts.flatten = data := by
  have hloop : ∀ (chunks : List Hash) (parts : List Bytes) (old : FileData) (m m' : Machine),
      st.Real m.fs → m.fs.get f = some (.file old) →
      collect chunks (fun ch => do
        let data ← look fun fs => st.getObject X fs ch
        io (writeAll f data)
        pure (some data)) m = .ok parts m' →
      List.Forall₂ (fun ch data => st.getObject X m.fs ch = .ok data) chunks parts := by
    intro chunks
    induction chunks with
    | nil =>
        intro parts old m m' _ _ h
        cases h
        exact .nil
    | cons ch rest ih =>
        intro parts old m m' hreal hf h
        obtain ⟨out, m₁, hbody, htail⟩ := bind_eq_ok.mp h
        obtain ⟨outs, m₂, hrest, hdone⟩ := bind_eq_ok.mp htail
        cases hdone
        obtain ⟨data, m₃, hlook, hwritten⟩ := bind_eq_ok.mp hbody
        obtain ⟨hfirst, rfl⟩ := look_eq_ok.mp hlook
        obtain ⟨_, m₄, hwrite, hout⟩ := bind_eq_ok.mp hwritten
        cases hout
        obtain ⟨w', hw', rfl⟩ := io_eq_ok.mp hwrite
        obtain ⟨w, d, hw, hget, _, hframe, _⟩ := writeAll_of_file (w := m₃.toWorld) hf data
        cases hw.symm.trans hw'
        have hreal' : st.Real ({ m₃ with toWorld := w' } : Machine).fs := by
          apply hreal.of_frame
          intro q
          by_cases hq : q = f
          · refine Or.inr ⟨⟨d, hq ▸ hget⟩, ?_⟩
            intro heq
            rw [← hq, heq, hreal.dir] at hf
            cases hf
          · exact Or.inl ⟨q, Or.inl (hframe q hq)⟩
        have hkeep : ∀ c, m₃.fs.leaf (st.objectPath c) = w'.fs.leaf (st.objectPath c) := by
          intro c
          unfold Fs.leaf
          rw [hframe _ (Ne.symm (hother c))]
        refine .cons hfirst ((ih _ d _ _ hreal' hget hrest).imp ?_)
        intro c data hc
        exact getObject_congr hreal' hreal hc (hkeep c)
  obtain ⟨parts, u, hrun, hdone⟩ := bind_eq_ok.mp h
  cases hdone
  exact ⟨parts, hloop chunks parts old m _ hreal hf hrun, rfl⟩

/-- An object reads the same in both trees. -/
theorem loads_congr {fs fs' : Fs} {chunks : List Hash} {parts : List Bytes} (hreal : st.Real fs)
    (hreal' : st.Real fs') (hsame : ∀ c, fs'.leaf (st.objectPath c) = fs.leaf (st.objectPath c)) :
    List.Forall₂ (fun ch data => st.getObject X fs' ch = .ok data) chunks parts ↔
      List.Forall₂ (fun ch data => st.getObject X fs ch = .ok data) chunks parts := by
  constructor
  · intro h
    exact h.imp fun c data hc => getObject_congr hreal' hreal hc (hsame c).symm
  · intro h
    exact h.imp fun c data hc => getObject_congr hreal hreal' hc (hsame c)

/-- Every chunk of a list loads exactly if the list loads. -/
theorem loadable_iff {fs : Fs} {chunks : List Hash} :
    (∃ parts, List.Forall₂ (fun ch data => st.getObject X fs ch = .ok data) chunks parts) ↔
      ∀ c ∈ chunks, ∃ data, st.getObject X fs c = .ok data := by
  constructor
  · intro h
    obtain ⟨parts, hparts⟩ := h
    induction hparts with
    | nil => simp
    | cons hfirst _ ih =>
        intro c hc
        rcases List.mem_cons.mp hc with rfl | hin
        · exact ⟨_, hfirst⟩
        · exact ih c hin
  · intro h
    induction chunks with
    | nil => exact ⟨[], .nil⟩
    | cons ch rest ih =>
        obtain ⟨data, hdata⟩ := h ch List.mem_cons_self
        obtain ⟨parts, hparts⟩ := ih fun c hc => h c (List.mem_cons_of_mem _ hc)
        exact ⟨data :: parts, .cons hdata hparts⟩

/-- What the chunks load as decides whether they make up the content. -/
theorem loads_iff_of_parts {fs : Fs} {parts : List Bytes}
    (h : List.Forall₂ (fun ch data => st.getObject X fs ch = .ok data) fe.chunks parts) :
    Loads X st fs fe ↔ X.blake3 parts.flatten = fe.content := by
  constructor
  · intro hloads
    obtain ⟨parts', hparts', hdata⟩ := hloads
    have hunique : Relator.RightUnique fun ch data => st.getObject X fs ch = .ok data :=
      fun _ _ _ ha hb => Except.ok.inj (ha.symm.trans hb)
    rw [hunique.forall₂ h hparts', hdata]
  · intro hdata
    exact ⟨parts, h, hdata⟩

/-! ## The temporary file -/

/-- Opening the temporary file fails only where its name is taken. -/
theorem openTmp_leaves (hreal : st.Real m.fs) (hdir : m.fs.get (tmpDir st) = some .dir) :
    After ((do
        let tmp ← tmpPath (tmpDir st) (str "revert")
        io (createNew tmp defaultMode) : Sys Path) m)
      (fun f t => f = ownTmp (tmpDir st) m.pid m.tmpCounter ∧
        Opened (ownTmp (tmpDir st) m.pid m.tmpCounter) [] m t)
      (fun _ t => t.fs = m.fs ∧
        m.fs.get (ownTmp (tmpDir st) m.pid m.tmpCounter) ≠ none) := by
  have hunfold : (do
      let tmp ← tmpPath (tmpDir st) (str "revert")
      io (createNew tmp defaultMode) : Sys Path) m =
        io (createNew (ownTmp (tmpDir st) m.pid m.tmpCounter) defaultMode)
          { m with tmpCounter := m.tmpCounter + 1 } := rfl
  rw [hunfold]
  apply after_io
  cases h : createNew (ownTmp (tmpDir st) m.pid m.tmpCounter) defaultMode m.toWorld with
  | error e w =>
      obtain rfl := createNew_error h
      refine ⟨rfl, ?_⟩
      intro hvacant
      unfold createNew at h
      rw [resolve_ownTmp hreal hdir] at h
      simp only [hvacant] at h
      cases h
  | ok f w =>
      obtain ⟨hres, hopened⟩ := opened_of_createNew h
      obtain rfl := Except.ok.inj ((resolve_ownTmp hreal hdir _ _).symm.trans hres)
      exact ⟨rfl, hopened.absent, hopened.file, hopened.frame, hopened.ran.events,
        hopened.ran.pid, hopened.ran.keychain⟩

/-- Copying the chunks into it fails only where one cannot be read. -/
theorem copyChunks_leaves {k n : Nat} {chunks : List Hash} (hreal : st.Real m.fs)
    (h : Opened (ownTmp (tmpDir st) k n) [] m m') :
    After (copyChunks X st (ownTmp (tmpDir st) k n) chunks m')
      (fun data u => (∃ parts, List.Forall₂ (fun ch data => st.getObject X m.fs ch = .ok data)
          chunks parts ∧ parts.flatten = data) ∧ Opened (ownTmp (tmpDir st) k n) data m u)
      (fun _ u => (∃ c ∈ chunks, ∀ data, st.getObject X m.fs c ≠ .ok data) ∧
        ∃ data, Opened (ownTmp (tmpDir st) k n) data m u) := by
  obtain ⟨old, hold, hempty⟩ := h.file
  have hreal' : st.Real m'.fs := hreal.grow h.grows
  have hsame : ∀ c, m'.fs.leaf (st.objectPath c) = m.fs.leaf (st.objectPath c) := by
    intro c
    unfold Fs.leaf
    rw [h.frame _ (Ne.symm (ownTmp_ne_objectPath _ _ c))]
  have hcopied : After (copyChunks X st _ chunks m') _ _ := copyChunks_after X hold chunks
  rw [hempty] at hcopied
  cases hrun : copyChunks X st (ownTmp (tmpDir st) k n) chunks m' with
  | ok data u =>
      obtain ⟨parts, hparts, hdata⟩ := loaded_of_copyChunks hreal' hold
        (ownTmp_ne_objectPath k n) hrun
      exact ⟨⟨parts, (loads_congr hreal hreal' hsame).mp hparts, hdata⟩,
        h.append (hcopied.ok hrun)⟩
  | error e u =>
      obtain ⟨data, happended⟩ := hcopied.error hrun
      refine ⟨?_, data, h.append happended⟩
      by_contra hall
      push Not at hall
      obtain ⟨parts, hparts⟩ := loadable_iff.mpr hall
      obtain ⟨u', hok⟩ := copyChunks_ok hreal' hold (ownTmp_ne_objectPath k n)
        ((loads_congr hreal hreal' hsame).mpr hparts)
      rw [hrun] at hok
      cases hok

/-- Copying gives the content exactly where the chunks make it up. -/
theorem copies_iff {k n : Nat} (hreal : st.Real m.fs)
    (h : Opened (ownTmp (tmpDir st) k n) [] m m') :
    (∃ data u, copyChunks X st (ownTmp (tmpDir st) k n) fe.chunks m' = .ok data u ∧
      X.blake3 data = fe.content) ↔ Loads X st m.fs fe := by
  have hcopied : After (copyChunks X st _ fe.chunks m') _ _ := copyChunks_leaves hreal h
  cases hrun : copyChunks X st (ownTmp (tmpDir st) k n) fe.chunks m' with
  | error e u =>
      obtain ⟨⟨c, hc, hchunk⟩, _⟩ := hcopied.error hrun
      refine iff_of_false (by simp) ?_
      intro hloads
      obtain ⟨parts, hparts, _⟩ := hloads
      obtain ⟨data, hdata⟩ := loadable_iff.mp ⟨parts, hparts⟩ c hc
      exact hchunk data hdata
  | ok data u =>
      obtain ⟨⟨parts, hparts, rfl⟩, _⟩ := hcopied.ok hrun
      rw [loads_iff_of_parts hparts]
      constructor
      · intro hcopy
        obtain ⟨data, u', hok, hdata⟩ := hcopy
        cases hok
        exact hdata
      · intro hdata
        exact ⟨_, u, rfl, hdata⟩

/-- Removing it gives the tree back. -/
theorem discard_leaves {k n : Nat} {data : Bytes}
    (h : Opened (ownTmp (tmpDir st) k n) data m m') (q : Path) :
    (finalState (ignore (removeFile (ownTmp (tmpDir st) k n)) m')).fs.get q = m.fs.get q := by
  obtain ⟨d, hd, _⟩ := h.file
  have hleaf : m'.fs.leaf (ownTmp (tmpDir st) k n) = some (.file d) :=
    m'.fs.leaf_eq_some.mpr ⟨hd, by simp⟩
  unfold ignore
  rw [removeFile_of_leaf hleaf]
  refine (Fs.get_exec_unlink hleaf q).trans ?_
  by_cases hq : q = ownTmp (tmpDir st) k n
  · rw [if_pos hq, hq, h.absent]
  · rw [if_neg hq, h.frame q hq]

/-! ## Replacing a destination -/

/-- How a replacement ends that fails, and what its temporary file comes to. -/
inductive Exit (X : Crates) (st : Store) (fe : FileEntry) (rel : RelPath) (m m' : Machine) : Prop
  /-- the name of the temporary file is taken -/
  | taken (hsame : m'.fs = m.fs)
      (hname : m.fs.get (ownTmp (tmpDir st) m.pid m.tmpCounter) ≠ none)
  /-- a chunk cannot be read, and the file stays -/
  | stays (hvacant : m.fs.get (ownTmp (tmpDir st) m.pid m.tmpCounter) = none)
      (hchunk : ∃ c ∈ fe.chunks, ∀ data, st.getObject X m.fs c ≠ .ok data)
      (hfile : m'.fs.get (ownTmp (tmpDir st) m.pid m.tmpCounter) ≠ none)
      (hsame : ∀ q, q ≠ ownTmp (tmpDir st) m.pid m.tmpCounter → m'.fs.get q = m.fs.get q)
  /-- the content is another, and the file is removed -/
  | removed (hvacant : m.fs.get (ownTmp (tmpDir st) m.pid m.tmpCounter) = none)
      (hchunks : ∀ c ∈ fe.chunks, ∃ data, st.getObject X m.fs c = .ok data)
      (hcontent : ¬ Loads X st m.fs fe) (hsame : ∀ q, m'.fs.get q = m.fs.get q)
  /-- the content has nowhere to go -/
  | nowhere (hvacant : m.fs.get (ownTmp (tmpDir st) m.pid m.tmpCounter) = none)
      (hcontent : Loads X st m.fs fe)
      (hdest : rel.dirOnly = true ∨ m.fs.get (st.root ++ rel.comps) = some .dir)

/-- The destination was replaced, and nothing else changed. -/
structure Replaced (X : Crates) (st : Store) (fe : FileEntry) (rel : RelPath) (m m' : Machine) :
    Prop where
  vacant : m.fs.get (ownTmp (tmpDir st) m.pid m.tmpCounter) = none
  loads : Loads X st m.fs fe
  plain : rel.dirOnly = false
  free : m.fs.get (st.root ++ rel.comps) ≠ some .dir
  stands : m'.fs.get (st.root ++ rel.comps) ≠ none
  same : ∀ q, q ≠ st.root ++ rel.comps → m'.fs.get q = m.fs.get q

/-- What writing one file leaves, on success and on error. -/
theorem materialize_leaves {rel : RelPath} (hready : Ready st (tmpDir st) m.fs)
    (hreal : st.Real m.fs) (hparent : m.fs.get (st.root ++ rel.comps.dropLast) = some .dir) :
    After (materialize X st (rel.under st.root) fe m)
      (fun _ m' => Replaced X st fe rel m m') (fun _ m' => Exit X st fe rel m m') := by
  have hself : m.fs.resolve false (tmpDir st) = .ok (tmpDir st) :=
    Fs.resolve_of_get hready.dir (by simp)
  have hleads : m.fs.resolve false (tmpDir st ++ [dot]) = .ok (tmpDir st) :=
    Fs.resolve_snoc_dot (fun _ _ hx => hx) hready.dir hself
  have hunfold : materialize X st (rel.under st.root) fe m =
      ((do
        let tmp ← tmpPath (tmpDir st) (str "revert")
        io (createNew tmp defaultMode) : Sys Path) >>= fun f =>
          copyChunks X st f fe.chunks >>= fun data =>
            if X.blake3 data ≠ fe.content then do
              ignore (removeFile (ownTmp (tmpDir st) m.pid m.tmpCounter))
              throw (.corrupt (str "reconstructed content mismatch for " ++ fe.path))
            else do
              io (rename (ownTmp (tmpDir st) m.pid m.tmpCounter) (rel.under st.root))
              setMode (rel.under st.root) fe.mode) m := by
    simp only [materialize, bind_apply, tmpPath, ownTmp]
  rw [hunfold]
  have hopen : After ((do
      let tmp ← tmpPath (tmpDir st) (str "revert")
      io (createNew tmp defaultMode) : Sys Path) m) _ _ := openTmp_leaves hreal hready.dir
  rw [bind_apply]
  cases hcreate : (do
      let tmp ← tmpPath (tmpDir st) (str "revert")
      io (createNew tmp defaultMode) : Sys Path) m with
  | error e t =>
      obtain ⟨hsame, hname⟩ := hopen.error hcreate
      exact .taken hsame hname
  | ok f t =>
      obtain ⟨rfl, hopened⟩ := hopen.ok hcreate
      have hcopied : After (copyChunks X st _ fe.chunks t) _ _ := copyChunks_leaves hreal hopened
      simp only
      rw [bind_apply]
      cases hcopy : copyChunks X st (ownTmp (tmpDir st) m.pid m.tmpCounter) fe.chunks t with
      | error e u =>
          obtain ⟨hchunk, data, hfile⟩ := hcopied.error hcopy
          obtain ⟨d, hd, _⟩ := hfile.file
          exact .stays hopened.absent hchunk (by simp [hd]) hfile.frame
      | ok data u =>
          obtain ⟨⟨parts, hparts, rfl⟩, hfile⟩ := hcopied.ok hcopy
          have hcontent : Loads X st m.fs fe ↔ X.blake3 parts.flatten = fe.content :=
            loads_iff_of_parts hparts
          simp only
          by_cases hdata : X.blake3 parts.flatten = fe.content
          · rw [if_neg (not_not.mpr hdata)]
            apply (replace_after hready hleads hparent hfile hdata).mono
            · intro _ m' h
              obtain ⟨hplain, hplaced⟩ := h
              obtain ⟨d, hd, _⟩ := hplaced.content
              exact ⟨hopened.absent, hcontent.mpr hdata, hplain, hplaced.notDir, by simp [hd],
                hplaced.frame⟩
            · intro _ m' h
              exact .nowhere hopened.absent (hcontent.mpr hdata) h.2
          · rw [if_pos hdata]
            refine .removed hopened.absent (loadable_iff.mp ⟨parts, hparts⟩)
              (fun h => hdata (hcontent.mp h)) ?_
            exact discard_leaves hfile

/-! ## One entry -/

/-- The directories above a destination were made, with what that leaves as it
was. -/
structure ParentsMade (st : Store) (rel : RelPath) (m m' : Machine) : Prop where
  made : io (createDirAll (st.root ++ rel.comps.dropLast)) m = .ok () m'
  parent : m'.fs.get (st.root ++ rel.comps.dropLast) = some .dir
  ready : Ready st (tmpDir st) m'.fs
  real : st.Real m'.fs
  name : ownTmp (tmpDir st) m'.pid m'.tmpCounter = ownTmp (tmpDir st) m.pid m.tmpCounter
  dest : m'.fs.get (st.root ++ rel.comps) = m.fs.get (st.root ++ rel.comps)
  stands : ∀ q, m'.fs.get q ≠ none ↔ m.fs.get q ≠ none ∨ q <+: st.root ++ rel.comps.dropLast
  leaves : ∀ q, m'.fs.leaf q = m.fs.leaf q

/-- With a clear way the parents are made. -/
theorem parents_made {rel : RelPath} (hready : Ready st (tmpDir st) m.fs) (hreal : st.Real m.fs)
    (hclear : ClearWay m.fs st.root rel.comps) : ∃ m', ParentsMade st rel m m' := by
  obtain ⟨m', hmake, hparent, hmade, hpid, _, hdest⟩ :=
    makeParents hready.root (valid_under hready.root rel) hclear rel.nonempty
  have hgrows := hmade.adds.newDirs.grows
  have hname : ownTmp (tmpDir st) m'.pid m'.tmpCounter =
      ownTmp (tmpDir st) m.pid m.tmpCounter := by
    obtain ⟨w, _, rfl⟩ := io_eq_ok.mp hmake
    rfl
  refine ⟨m', hmake, hparent, hready.grow hgrows, hreal.grow hgrows, hname, hdest, ?_,
    hmade.adds.newDirs.leaf_eq⟩
  intro q
  by_cases hup : q <+: st.root ++ rel.comps.dropLast
  · exact iff_of_true (by simp [Fs.dir_of_prefix hparent hup]) (.inr hup)
  · rcases hmade.adds q with heq | ⟨hpre, _⟩
    · rw [heq]
      exact ⟨.inl, fun h => h.resolve_right hup⟩
    · exact absurd hpre hup

namespace ParentsMade

variable {rel : RelPath} (h : ParentsMade st rel m m')

include h

/-- The chunks load as they did. -/
theorem loads_iff {chunks : List Hash} {parts : List Bytes} (hreal : st.Real m.fs) :
    List.Forall₂ (fun ch data => st.getObject X m'.fs ch = .ok data) chunks parts ↔
      List.Forall₂ (fun ch data => st.getObject X m.fs ch = .ok data) chunks parts :=
  loads_congr hreal h.real fun c => h.leaves (st.objectPath c)

theorem loads_entry (hreal : st.Real m.fs) : Loads X st m'.fs fe ↔ Loads X st m.fs fe := by
  unfold Loads
  simp only [h.loads_iff hreal]

/-- The objects of the entry load as they did before. -/
theorem loadable (hreal : st.Real m.fs) :
    (∀ c ∈ fe.chunks, ∃ data, st.getObject X m'.fs c = .ok data) ↔
      ∀ c ∈ fe.chunks, ∃ data, st.getObject X m.fs c = .ok data := by
  rw [← loadable_iff, ← loadable_iff]
  simp only [h.loads_iff hreal]

/-- Whether the entry is to be written was decided before. -/
theorem needed : ∃ b, needsWrite X (rel.under st.root) fe m'.fs = .ok b ∧
    (b = true ↔ rel.dirOnly = true ∨ Differs X (st.root ++ rel.comps) fe m.fs) := by
  have hlook : ∃ b, needsWrite X (rel.under st.root) fe m'.fs = .ok b ∧ _ :=
    needsWrite_eq h.ready.root h.parent
  unfold Differs at hlook ⊢
  rw [h.dest] at hlook
  exact hlook

/-- The name of the temporary file is free if it was and no directory took it. -/
theorem vacant_iff : m'.fs.get (ownTmp (tmpDir st) m'.pid m'.tmpCounter) = none ↔
    m.fs.get (ownTmp (tmpDir st) m.pid m.tmpCounter) = none ∧
      ¬ ownTmp (tmpDir st) m.pid m.tmpCounter <+: st.root ++ rel.comps.dropLast := by
  have hstands := h.stands (ownTmp (tmpDir st) m.pid m.tmpCounter)
  rw [h.name]
  tauto

end ParentsMade

/-- With the parents made and the name of the temporary file free, the write
begins. -/
theorem ParentsMade.begun {rel : RelPath} (h : ParentsMade st rel m m')
    (hpath : sanitizeRel fe.path = .ok rel) (hclear : ClearWay m.fs st.root rel.comps)
    (hneeded : rel.dirOnly = true ∨ Differs X (st.root ++ rel.comps) fe m.fs)
    (hvacant : m'.fs.get (ownTmp (tmpDir st) m'.pid m'.tmpCounter) = none) :
    Begun X st fe rel m :=
  ⟨hpath, hclear, hneeded, (h.vacant_iff.mp hvacant).1, (h.vacant_iff.mp hvacant).2⟩

/-- **When an entry fails for its objects**: its turn takes it to the copying,
and the chunks do not make up its content. -/
theorem copyFails_iff (hready : Ready st (tmpDir st) m.fs) (hreal : st.Real m.fs) :
    CopyFails X st fe m ↔ ∃ rel, Begun X st fe rel m ∧ ¬ Loads X st m.fs fe := by
  constructor
  · intro h
    obtain ⟨rel, m₁, f, t, hresolve, hmake, hneeded, hopen, hnot⟩ := h
    obtain ⟨hpath, hclear⟩ := (resolveDest_eq_ok hready.root).mp hresolve
    obtain ⟨m₁', hparents⟩ := parents_made hready hreal hclear
    cases hparents.made.symm.trans hmake
    obtain ⟨b, hb, hwhen⟩ : ∃ b, needsWrite X (rel.under st.root) fe m₁.fs = .ok b ∧ _ :=
      hparents.needed
    cases Except.ok.inj (hb.symm.trans hneeded)
    obtain ⟨rfl, hopened⟩ := (openTmp_leaves hparents.real hparents.ready.dir).ok hopen
    refine ⟨rel, hparents.begun hpath hclear (hwhen.mp rfl) hopened.absent, ?_⟩
    rw [← hparents.loads_entry hreal, ← copies_iff hparents.real hopened]
    exact hnot
  · intro h
    obtain ⟨rel, hbegun, hnot⟩ := h
    obtain ⟨m₁, hparents⟩ := parents_made hready hreal hbegun.clear
    obtain ⟨b, hb, hwhen⟩ : ∃ b, needsWrite X (rel.under st.root) fe m₁.fs = .ok b ∧ _ :=
      hparents.needed
    obtain rfl := hwhen.mpr hbegun.needed
    have hopen : After ((do
        let tmp ← tmpPath (tmpDir st) (str "revert")
        io (createNew tmp defaultMode) : Sys Path) m₁) _ _ :=
      openTmp_leaves hparents.real hparents.ready.dir
    cases hcreate : (do
        let tmp ← tmpPath (tmpDir st) (str "revert")
        io (createNew tmp defaultMode) : Sys Path) m₁ with
    | error e t =>
        exact absurd (hparents.vacant_iff.mpr ⟨hbegun.vacant, hbegun.apart⟩)
          (hopen.error hcreate).2
    | ok f t =>
        obtain ⟨rfl, hopened⟩ := hopen.ok hcreate
        refine ⟨rel, m₁, _, t, (resolveDest_eq_ok hready.root).mpr ⟨hbegun.path, hbegun.clear⟩,
          hparents.made, hb, hcreate, ?_⟩
        rw [copies_iff hparents.real hopened, hparents.loads_entry hreal]
        exact hnot

/-- An entry with an unreadable chunk fails for its objects. -/
theorem copyFails_of_unreadable (hready : Ready st (tmpDir st) m.fs) (hreal : st.Real m.fs)
    (h : Unreadable X st fe m) : CopyFails X st fe m := by
  obtain ⟨rel, hbegun, c, hc, hchunk⟩ := h
  refine (copyFails_iff hready hreal).mpr ⟨rel, hbegun, ?_⟩
  intro hloads
  obtain ⟨parts, hparts, _⟩ := hloads
  obtain ⟨data, hdata⟩ := loadable_iff.mp ⟨parts, hparts⟩ c hc
  exact hchunk data hdata

/-- The entry got through: the names it adds were put into the temporary
directory, and no others. -/
structure Passed (X : Crates) (st : Store) (fe : FileEntry) (m m' : Machine) : Prop where
  ready : Ready st (tmpDir st) m'.fs
  real : st.Real m'.fs
  objects : ¬ CopyFails X st fe m
  way : ¬ Obstructed X st fe m
  names : ∀ n, InTmp st m'.fs n ↔ InTmp st m.fs n ∨ Adds X st fe m n

/-- How an entry ends that stops the revert. -/
inductive Stop (X : Crates) (st : Store) (fe : FileEntry) (m m' : Machine) : Prop
  /-- something else than its objects is in the way -/
  | obstructed (hway : Obstructed X st fe m) (hobjects : ¬ CopyFails X st fe m)
  /-- a chunk cannot be read, and a new name is in the temporary directory -/
  | unreadable (hchunk : Unreadable X st fe m) (hname : ∃ n, InTmp st m'.fs n ∧ ¬ InTmp st m.fs n)
  /-- the content is another -/
  | mismatch (hobjects : CopyFails X st fe m) (hchunks : ¬ Unreadable X st fe m)
      (hway : ¬ Obstructed X st fe m)
      (hnames : ∀ n, InTmp st m'.fs n ↔ InTmp st m.fs n ∨ Adds X st fe m n)

/-- The names in the temporary directory after the directories were made. -/
theorem ParentsMade.inTmp {rel : RelPath} (h : ParentsMade st rel m m') (n : Name) :
    InTmp st m'.fs n ↔ InTmp st m.fs n ∨ tmpDir st ++ [n] <+: st.root ++ rel.comps.dropLast :=
  h.stands _

/-- What an entry adds whose content does not come to its place. -/
theorem adds_parents {rel : RelPath} (hpath : sanitizeRel fe.path = .ok rel)
    (hclear : ClearWay m.fs st.root rel.comps)
    (hnot : ¬ (Begun X st fe rel m ∧ Loads X st m.fs fe)) (n : Name) :
    InTmp st m.fs n ∨ Adds X st fe m n ↔
      InTmp st m.fs n ∨ tmpDir st ++ [n] <+: st.root ++ rel.comps.dropLast := by
  by_cases hin : InTmp st m.fs n
  · simp [hin]
  · refine or_congr_right ?_
    constructor
    · intro h
      obtain ⟨rel', hpath', _, _, hup | ⟨_, _, hbegun, hloads⟩⟩ := h
      · cases hpath.symm.trans hpath'
        exact hup
      · cases hpath.symm.trans hpath'
        exact absurd ⟨hbegun, hloads⟩ hnot
    · intro hup
      exact ⟨rel, hpath, hclear, not_not.mp hin, .inl hup⟩

/-- What an entry adds whose content does. -/
theorem adds_placed {rel : RelPath} (hbegun : Begun X st fe rel m) (hloads : Loads X st m.fs fe)
    (hplain : rel.dirOnly = false) (n : Name) :
    InTmp st m.fs n ∨ Adds X st fe m n ↔
      InTmp st m.fs n ∨ tmpDir st ++ [n] <+: st.root ++ rel.comps.dropLast ∨
        tmpDir st ++ [n] = st.root ++ rel.comps := by
  by_cases hin : InTmp st m.fs n
  · simp [hin]
  · refine or_congr_right ?_
    constructor
    · intro h
      obtain ⟨rel', hpath', _, _, hup | ⟨hat, _⟩⟩ := h
      · cases hbegun.path.symm.trans hpath'
        exact .inl hup
      · cases hbegun.path.symm.trans hpath'
        exact .inr hat
    · intro h
      refine ⟨rel, hbegun.path, hbegun.clear, not_not.mp hin, ?_⟩
      exact h.imp_right fun hat => ⟨hat, hplain, hbegun, hloads⟩

/-- An entry whose destination cannot be looked up is obstructed. -/
theorem stop_of_unresolved (hready : Ready st (tmpDir st) m.fs) (hreal : st.Real m.fs) {e : Error}
    (h : resolveDest st.root fe.path m.fs = .error e) : Stop X st fe m m := by
  have hnone : ∀ rel, sanitizeRel fe.path = .ok rel → ¬ ClearWay m.fs st.root rel.comps := by
    intro rel hpath hclear
    rw [(resolveDest_eq_ok hready.root).mpr ⟨hpath, hclear⟩] at h
    cases h
  refine .obstructed (fun rel hpath hclear => absurd hclear (hnone rel hpath)) ?_
  intro hfails
  obtain ⟨rel, hbegun, _⟩ := (copyFails_iff hready hreal).mp hfails
  exact hnone rel hbegun.path hbegun.clear

/-- An entry that has not begun does not fail for its objects. -/
theorem objects_of_not_begun {rel : RelPath} (hready : Ready st (tmpDir st) m.fs)
    (hreal : st.Real m.fs) (hpath : sanitizeRel fe.path = .ok rel)
    (hnot : ¬ Begun X st fe rel m) : ¬ CopyFails X st fe m := by
  intro hfails
  obtain ⟨rel', hbegun, _⟩ := (copyFails_iff hready hreal).mp hfails
  obtain rfl := Except.ok.inj (hbegun.path.symm.trans hpath)
  exact hnot hbegun

section Entry

variable {rel : RelPath} {m₁ t : Machine} (h : ParentsMade st rel m m₁)
  (hready : Ready st (tmpDir st) m.fs) (hreal : st.Real m.fs)
  (hpath : sanitizeRel fe.path = .ok rel) (hclear : ClearWay m.fs st.root rel.comps)

include h hready hreal hpath hclear

/-- An entry that need not be written leaves the directories above it. -/
theorem passed_of_unneeded
    (hneeded : ¬ (rel.dirOnly = true ∨ Differs X (st.root ++ rel.comps) fe m.fs)) :
    Passed X st fe m m₁ := by
  have hnot : ¬ Begun X st fe rel m := fun hbegun => hneeded hbegun.needed
  refine ⟨h.ready, h.real, objects_of_not_begun hready hreal hpath hnot, ?_, ?_⟩
  · intro hway
    exact hneeded (hway rel hpath hclear).1
  · intro n
    rw [adds_parents hpath hclear fun hboth => hnot hboth.1]
    exact h.inTmp n

/-- An entry that was replaced adds what it is spelled as. -/
theorem passed_of_replaced
    (hneeded : rel.dirOnly = true ∨ Differs X (st.root ++ rel.comps) fe m.fs)
    (hreplaced : Replaced X st fe rel m₁ t) (hgrows : Fs.Grows m₁.fs t.fs) :
    Passed X st fe m t := by
  have hbegun := h.begun hpath hclear hneeded hreplaced.vacant
  have hloads := (h.loads_entry hreal).mp hreplaced.loads
  refine ⟨h.ready.grow hgrows, h.real.grow hgrows, ?_, ?_, ?_⟩
  · intro hfails
    obtain ⟨_, _, hnot⟩ := (copyFails_iff hready hreal).mp hfails
    exact hnot hloads
  · intro hway
    obtain ⟨_, hnowhere⟩ := hway rel hpath hclear
    rcases (hnowhere hbegun).2 with hdir | hdir
    · rw [hreplaced.plain] at hdir
      cases hdir
    · exact hreplaced.free (h.dest ▸ hdir)
  · intro n
    rw [adds_placed hbegun hloads hreplaced.plain, ← or_assoc, ← h.inTmp]
    unfold InTmp
    by_cases hat : tmpDir st ++ [n] = st.root ++ rel.comps
    · rw [hat]
      exact iff_of_true hreplaced.stands (.inr rfl)
    · rw [hreplaced.same _ hat, or_iff_left hat]

/-- A replacement that fails stops the revert, for the reason it fails. -/
theorem stop_of_exit
    (hneeded : rel.dirOnly = true ∨ Differs X (st.root ++ rel.comps) fe m.fs)
    (hexit : Exit X st fe rel m₁ t) : Stop X st fe m t := by
  cases hexit with
  | taken hsame hname =>
      have hnot : ¬ Begun X st fe rel m := fun hbegun =>
        hname (h.vacant_iff.mpr ⟨hbegun.vacant, hbegun.apart⟩)
      refine .obstructed ?_ (objects_of_not_begun hready hreal hpath hnot)
      intro rel' hpath' _
      cases hpath.symm.trans hpath'
      exact ⟨hneeded, fun hbegun => absurd hbegun hnot⟩
  | stays hvacant hchunk hfile hsame =>
      have hbegun := h.begun hpath hclear hneeded hvacant
      obtain ⟨c, hc, hdata⟩ := hchunk
      refine .unreadable ⟨rel, hbegun, c, hc, ?_⟩ ⟨_, hfile, ?_⟩
      · intro data hload
        obtain ⟨parts, hparts⟩ : ∃ parts, List.Forall₂
            (fun ch data => st.getObject X m.fs ch = .ok data) [c] parts :=
          ⟨[data], .cons hload .nil⟩
        cases (h.loads_iff hreal).mpr hparts with
        | cons hfirst _ => exact hdata _ hfirst
      · have hfree := (h.vacant_iff.mp hvacant).1
        unfold InTmp
        rw [← h.name] at hfree
        exact not_not.mpr hfree
  | removed hvacant hchunks hcontent hsame =>
      have hbegun := h.begun hpath hclear hneeded hvacant
      have hnot : ¬ Loads X st m.fs fe := by
        rw [← h.loads_entry hreal]
        exact hcontent
      have hfails : CopyFails X st fe m := (copyFails_iff hready hreal).mpr ⟨rel, hbegun, hnot⟩
      refine .mismatch hfails ?_ ?_ ?_
      · intro hunreadable
        obtain ⟨_, _, c, hc, hdata⟩ := hunreadable
        obtain ⟨data, hload⟩ := (h.loadable hreal).mp hchunks c hc
        exact hdata data hload
      · intro hway
        exact hnot ((hway rel hpath hclear).2 hbegun).1
      · intro n
        rw [adds_parents hpath hclear fun hboth => hnot hboth.2, ← h.inTmp]
        unfold InTmp
        rw [hsame]
  | nowhere hvacant hcontent hdest =>
      have hloads := (h.loads_entry hreal).mp hcontent
      refine .obstructed ?_ ?_
      · intro rel' hpath' _
        cases hpath.symm.trans hpath'
        exact ⟨hneeded, fun _ => ⟨hloads, h.dest ▸ hdest⟩⟩
      · intro hfails
        obtain ⟨_, _, hnot⟩ := (copyFails_iff hready hreal).mp hfails
        exact hnot hloads

end Entry

/-- **What one entry leaves in the temporary directory**, whatever its
outcome, by what held before its turn. -/
theorem writeEntry_leaves (hready : Ready st (tmpDir st) m.fs) (hreal : st.Real m.fs) :
    After (writeEntry X st st.root fe m)
      (fun _ m' => Passed X st fe m m') (fun _ m' => Stop X st fe m m') := by
  unfold writeEntry
  rw [bind_apply]
  cases hlook : look (resolveDest st.root fe.path) m with
  | error e m₀ =>
      obtain ⟨herr, rfl⟩ := look_eq_error.mp hlook
      exact stop_of_unresolved hready hreal herr
  | ok rel m₀ =>
      obtain ⟨hok, rfl⟩ := look_eq_ok.mp hlook
      obtain ⟨hpath, hclear⟩ := (resolveDest_eq_ok hready.root).mp hok
      obtain ⟨m₁, hparents⟩ := parents_made hready hreal hclear
      obtain ⟨b, hb, hwhen⟩ : ∃ b, needsWrite X (rel.under st.root) fe m₁.fs = .ok b ∧ _ :=
        hparents.needed
      simp only
      rw [bind_apply, hparents.made]
      simp only
      rw [bind_apply, look_eq_ok.mpr ⟨hb, rfl⟩]
      simp only
      cases b with
      | false =>
          apply passed_of_unneeded hparents hready hreal hpath hclear
          intro hneeded
          cases hwhen.mpr hneeded
      | true =>
          have hneeded := hwhen.mp rfl
          have hmat : After (materialize X st (rel.under st.root) fe m₁) _ _ :=
            materialize_leaves hparents.ready hparents.real hparents.parent
          simp only [if_true]
          rw [bind_apply]
          cases hrun : materialize X st (rel.under st.root) fe m₁ with
          | error e t =>
              exact stop_of_exit hparents hready hreal hpath hclear hneeded (hmat.error hrun)
          | ok u t =>
              obtain ⟨_, _, hplaced⟩ := (materialize_after hparents.ready hparents.parent).ok hrun
              exact passed_of_replaced hparents hready hreal hpath hclear hneeded (hmat.ok hrun)
                hplaced.grows

/-! ## The write pass -/

variable {files : List FileEntry} {f : FileEntry} {s : Machine}

/-- The state before an entry's turn, with one entry more. -/
theorem reached_concat : Reached X st (files ++ [f]) m fe s ↔
    Reached X st files m fe s ∨ (fe = f ∧ ∃ outs, writePass X st st.root files m = .ok outs s) := by
  constructor
  · intro h
    obtain ⟨pre, post, outs, hsplit, hrun⟩ := h
    rcases List.eq_nil_or_concat post with rfl | ⟨post, g, rfl⟩
    · obtain ⟨rfl, hlast⟩ := List.append_inj' hsplit rfl
      exact .inr ⟨(List.singleton_inj.mp hlast).symm, outs, hrun⟩
    · rw [List.concat_eq_append, ← List.cons_append, ← List.append_assoc] at hsplit
      exact .inl ⟨pre, post, outs, (List.append_inj' hsplit rfl).1, hrun⟩
  · intro h
    rcases h with ⟨pre, post, outs, rfl, hrun⟩ | ⟨rfl, outs, hrun⟩
    · exact ⟨pre, post ++ [f], outs, by simp, hrun⟩
    · exact ⟨files, [], outs, rfl, hrun⟩

/-- A pass that stops at an entry does not come to those after it. -/
theorem reached_stop {pre post : List FileEntry} {outs : List Bytes} {t u : Machine} {e : Error}
    (hpre : writePass X st st.root pre m = .ok outs s)
    (hstop : writeEntry X st st.root f s = .error e t) :
    Reached X st (pre ++ f :: post) m fe u ↔ Reached X st (pre ++ [f]) m fe u := by
  have hsplit : pre ++ f :: post = (pre ++ [f]) ++ post := by simp
  have hfails : ∀ outs v, writePass X st st.root (pre ++ [f]) m ≠ .ok outs v := by
    intro outs' v hok
    obtain ⟨_, _, s', hfirst, hlast, _⟩ := collect_append_eq_ok.mp hok
    cases hpre.symm.trans hfirst
    obtain ⟨_, _, hentry, _⟩ := bind_eq_ok.mp hlast
    rw [hstop] at hentry
    cases hentry
  constructor
  · intro h
    obtain ⟨pre', post', outs', heq, hrun⟩ := h
    have hthis : pre' ++ [fe] <+: pre ++ f :: post := heq ▸ ⟨post', by simp⟩
    have hthat : pre ++ [f] <+: pre ++ f :: post := ⟨post, by simp⟩
    have hshort : pre' ++ [fe] <+: pre ++ [f] := by
      rcases List.prefix_or_prefix_of_prefix hthis hthat with hin | hin
      · exact hin
      · rcases List.prefix_concat_iff.mp hin with hsame | ⟨more, rfl⟩
        · exact hsame ▸ List.prefix_refl _
        · obtain ⟨_, _, v, hfirst, _⟩ := collect_append_eq_ok.mp hrun
          exact absurd hfirst (hfails _ v)
    obtain ⟨more, hmore⟩ := hshort
    exact ⟨pre', more, outs', by rw [← hmore]; simp, hrun⟩
  · intro h
    obtain ⟨pre', post', outs', heq, hrun⟩ := h
    exact ⟨pre', post' ++ post, outs', by rw [hsplit, heq]; simp, hrun⟩

/-- What a write pass that gets through leaves, and what its entries met. -/
structure Through (X : Crates) (st : Store) (files : List FileEntry) (m m' : Machine) : Prop where
  ready : Ready st (tmpDir st) m'.fs
  real : st.Real m'.fs
  objects : ∀ fe s, Reached X st files m fe s → ¬ CopyFails X st fe s
  chunks : ∀ fe s, Reached X st files m fe s → ¬ Unreadable X st fe s
  way : ∀ fe s, Reached X st files m fe s → ¬ Obstructed X st fe s
  names : ∀ n, InTmp st m'.fs n ↔
    InTmp st m.fs n ∨ ∃ fe s, Reached X st files m fe s ∧ Adds X st fe s n

/-- The write pass goes through its entries. -/
theorem writePass_through (hready : Ready st (tmpDir st) m.fs) (hreal : st.Real m.fs)
    {outs : List Bytes} (h : writePass X st st.root files m = .ok outs m') :
    Through X st files m m' := by
  induction files using List.reverseRecOn generalizing outs m' with
  | nil =>
      cases h
      have hnone : ∀ fe s, ¬ Reached X st [] m fe s := by
        intro fe s hreach
        obtain ⟨pre, post, _, hnil, _⟩ := hreach
        simp at hnil
      refine ⟨hready, hreal, ?_, ?_, ?_, ?_⟩
      · exact fun fe s hreach => absurd hreach (hnone fe s)
      · exact fun fe s hreach => absurd hreach (hnone fe s)
      · exact fun fe s hreach => absurd hreach (hnone fe s)
      · intro n
        simp [hnone]
  | append_singleton files f ih =>
      obtain ⟨outs₁, outs₂, s, hfirst, hlast, _⟩ := collect_append_eq_ok.mp h
      obtain ⟨out, t, hentry, htail⟩ := bind_eq_ok.mp hlast
      cases htail
      have hrest := ih hfirst
      have hpassed : Passed X st f s m' :=
        (writeEntry_leaves hrest.ready hrest.real).ok hentry
      have hcases : ∀ fe u, Reached X st (files ++ [f]) m fe u ↔
          Reached X st files m fe u ∨ (fe = f ∧ u = s) := by
        intro fe u
        rw [reached_concat]
        refine or_congr_right (and_congr_right fun _ => ?_)
        constructor
        · intro hrun
          obtain ⟨_, hrun⟩ := hrun
          cases hfirst.symm.trans hrun
          rfl
        · rintro rfl
          exact ⟨outs₁, hfirst⟩
      refine ⟨hpassed.ready, hpassed.real, ?_, ?_, ?_, ?_⟩
      · intro fe u hreach
        rcases (hcases fe u).mp hreach with hold | ⟨rfl, rfl⟩
        · exact hrest.objects fe u hold
        · exact hpassed.objects
      · intro fe u hreach
        rcases (hcases fe u).mp hreach with hold | ⟨rfl, rfl⟩
        · exact hrest.chunks fe u hold
        · exact fun hchunk => hpassed.objects (copyFails_of_unreadable hrest.ready hrest.real
            hchunk)
      · intro fe u hreach
        rcases (hcases fe u).mp hreach with hold | ⟨rfl, rfl⟩
        · exact hrest.way fe u hold
        · exact hpassed.way
      · intro n
        rw [hpassed.names, hrest.names, or_assoc]
        refine or_congr_right ?_
        constructor
        · intro hadd
          rcases hadd with ⟨fe, u, hreach, hadd⟩ | hadd
          · exact ⟨fe, u, (hcases fe u).mpr (.inl hreach), hadd⟩
          · exact ⟨f, s, (hcases f s).mpr (.inr ⟨rfl, rfl⟩), hadd⟩
        · intro hadd
          obtain ⟨fe, u, hreach, hadd⟩ := hadd
          rcases (hcases fe u).mp hreach with hold | ⟨rfl, rfl⟩
          · exact .inl ⟨fe, u, hold, hadd⟩
          · exact .inr hadd

/-- An entry of the pass finds every name that was there. -/
theorem Reached.keeps (hready : Ready st (tmpDir st) m.fs) (hreal : st.Real m.fs)
    (h : Reached X st files m fe s) {n : Name} (hin : InTmp st m.fs n) : InTmp st s.fs n := by
  obtain ⟨pre, _, outs, _, hrun⟩ := h
  exact ((writePass_through hready hreal hrun).names n).mpr (.inl hin)

/-- Where nothing but the entries' own names was added, what the entries met
decides. -/
theorem leavesNothing_iff (hready : Ready st (tmpDir st) m.fs) (hreal : st.Real m.fs)
    (hchunks : ∀ fe s, Reached X st files m fe s → ¬ Unreadable X st fe s)
    (hway : ∀ fe s, Reached X st files m fe s → ¬ Obstructed X st fe s)
    (hnames : ∀ n, InTmp st m'.fs n ↔
      InTmp st m.fs n ∨ ∃ fe s, Reached X st files m fe s ∧ Adds X st fe s n) :
    (∀ n, InTmp st m'.fs n ↔ InTmp st m.fs n) ↔ LeavesNothing X st (Reached X st files m) := by
  constructor
  · intro hsame
    refine ⟨hchunks, ?_⟩
    intro hadds
    obtain ⟨fe, s, n, hreach, hadd⟩ := hadds
    have hin : InTmp st m.fs n := (hsame n).mp ((hnames n).mpr (.inr ⟨fe, s, hreach, hadd⟩))
    obtain ⟨_, _, _, hfree, _⟩ := hadd
    exact absurd hfree (hreach.keeps hready hreal hin)
  · intro h n
    rw [hnames]
    refine or_iff_left ?_
    intro hadds
    obtain ⟨fe, s, hreach, hadd⟩ := hadds
    obtain ⟨g, u, hreach', hobstructed⟩ := h.2 ⟨fe, s, n, hreach, hadd⟩
    exact hway g u hreach' hobstructed

/-- A pass that stops leaves the names as they were, or stopped for another
reason than its objects, exactly where its entries leave nothing. -/
theorem writePass_stopped (hready : Ready st (tmpDir st) m.fs) (hreal : st.Real m.fs) {e : Error}
    (h : writePass X st st.root files m = .error e m') :
    ((∃ fe s, Reached X st files m fe s ∧ CopyFails X st fe s) →
      ∀ n, InTmp st m'.fs n ↔ InTmp st m.fs n) ↔
    LeavesNothing X st (Reached X st files m) := by
  obtain ⟨pre, f, post, outs, s, rfl, hpre, hstop⟩ := collect_eq_error h
  have hthrough : Through X st pre m s := writePass_through hready hreal hpre
  have hcases : ∀ fe u, Reached X st (pre ++ f :: post) m fe u ↔
      Reached X st pre m fe u ∨ (fe = f ∧ u = s) := by
    intro fe u
    rw [reached_stop hpre hstop, reached_concat]
    refine or_congr_right (and_congr_right fun _ => ?_)
    constructor
    · intro hrun
      obtain ⟨_, hrun⟩ := hrun
      cases hpre.symm.trans hrun
      rfl
    · rintro rfl
      exact ⟨outs, hpre⟩
  have hlast : Reached X st (pre ++ f :: post) m f s := (hcases f s).mpr (.inr ⟨rfl, rfl⟩)
  cases (writeEntry_leaves hthrough.ready hthrough.real).error hstop with
  | obstructed hway hobjects =>
      refine iff_of_true ?_ ⟨?_, fun _ => ⟨f, s, hlast, hway⟩⟩
      · intro hfails
        obtain ⟨fe, u, hreach, hfails⟩ := hfails
        rcases (hcases fe u).mp hreach with hold | ⟨rfl, rfl⟩
        · exact absurd hfails (hthrough.objects fe u hold)
        · exact absurd hfails hobjects
      · intro fe u hreach hchunk
        rcases (hcases fe u).mp hreach with hold | ⟨rfl, rfl⟩
        · exact hthrough.chunks fe u hold hchunk
        · exact hobjects (copyFails_of_unreadable hthrough.ready hthrough.real hchunk)
  | unreadable hchunk hname =>
      refine iff_of_false ?_ fun hnothing => hnothing.1 f s hlast hchunk
      intro hsame
      obtain ⟨n, hin, hnew⟩ := hname
      have hfails := copyFails_of_unreadable hthrough.ready hthrough.real hchunk
      exact hnew (hlast.keeps hready hreal ((hsame ⟨f, s, hlast, hfails⟩ n).mp hin))
  | mismatch hobjects hchunks hway hnames =>
      rw [← leavesNothing_iff hready hreal ?_ ?_ ?_]
      · exact ⟨fun hsame => hsame ⟨f, s, hlast, hobjects⟩, fun hsame _ => hsame⟩
      · intro fe u hreach
        rcases (hcases fe u).mp hreach with hold | ⟨rfl, rfl⟩
        · exact hthrough.chunks fe u hold
        · exact hchunks
      · intro fe u hreach
        rcases (hcases fe u).mp hreach with hold | ⟨rfl, rfl⟩
        · exact hthrough.way fe u hold
        · exact hway
      · intro n
        rw [hnames, hthrough.names, or_assoc]
        refine or_congr_right ?_
        constructor
        · intro hadd
          rcases hadd with ⟨fe, u, hreach, hadd⟩ | hadd
          · exact ⟨fe, u, (hcases fe u).mpr (.inl hreach), hadd⟩
          · exact ⟨f, s, hlast, hadd⟩
        · intro hadd
          obtain ⟨fe, u, hreach, hadd⟩ := hadd
          rcases (hcases fe u).mp hreach with hold | ⟨rfl, rfl⟩
          · exact .inl ⟨fe, u, hold, hadd⟩
          · exact .inr hadd

/-! ## The whole revert -/

/-- The cleaning up leaves the temporary directory alone. -/
theorem inTmp_of_clean (h : Machine.Ran (CleanEvent st.root) m m') (n : Name) :
    InTmp st m'.fs n ↔ InTmp st m.fs n := by
  unfold InTmp
  rw [h.events.get_eq]
  intro e he hmem
  obtain ⟨rel, _, hex, hevent⟩ := he
  have hat : tmpDir st ++ [n] = st.root ++ rel := by
    rcases hevent with rfl | rfl <;> exact List.mem_singleton.mp hmem
  have hfabric : st.fabricDir <+: st.root ++ rel :=
    hat ▸ (List.prefix_append _ _).trans (List.prefix_append _ _)
  have hexcluded := Snapshot.excluded_of_fabric hfabric
  cases hex.symm.trans hexcluded

variable {mf : Manifest} {keepExtra : Bool}

/-- A revert that stops before any entry has its turn leaves nothing. -/
theorem keepsTmp_of_no_turn (hnone : ∀ fe s, ¬ Turn X st mf m fe s) {e : Error}
    (h : apply X st st.root mf keepExtra m = .error e m') :
    KeepsTmp X st mf keepExtra m ↔ LeavesNothing X st (Turn X st mf m) := by
  refine iff_of_true ?_ ⟨fun fe s hturn => absurd hturn (hnone fe s), ?_⟩
  · intro n
    rw [h]
    intro hturn
    obtain ⟨fe, s, hturn, _⟩ := hturn
    exact absurd hturn (hnone fe s)
  · intro hadds
    obtain ⟨fe, s, _, hturn, _⟩ := hadds
    exact absurd hturn (hnone fe s)

/-- Once the temporary directory is there, the turns are those of the pass. -/
theorem turn_eq {m₁ : Machine} {u : Unit} (hcheck : precheck X st mf m.fs = .ok ())
    (hmade : io (createDirAll (tmpDir st)) m = .ok u m₁) :
    Turn X st mf m = Reached X st mf.files m₁ := by
  funext fe s
  apply propext
  constructor
  · intro h
    obtain ⟨_, _, hmade', hreach⟩ := h
    cases hmade.symm.trans hmade'
    exact hreach
  · intro h
    exact ⟨m₁, hcheck, hmade, h⟩

/-- Making the temporary directory leaves the names in it. -/
theorem inTmp_of_made {m₁ : Machine} {u : Unit} (hreal : st.Real m.fs)
    (hmade : io (createDirAll (tmpDir st)) m = .ok u m₁) :
    Ready st (tmpDir st) m₁.fs ∧ st.Real m₁.fs ∧ ∀ n, InTmp st m₁.fs n ↔ InTmp st m.fs n := by
  obtain ⟨w, hmake, rfl⟩ := io_eq_ok.mp hmade
  obtain ⟨hdir, hgrows, hsame⟩ := tmpDir_made hreal hmake
  have hroot : m.fs.get st.root = some .dir :=
    Fs.dir_of_prefix hreal.dir (List.prefix_append _ _)
  refine ⟨ready_of_dir (hgrows.dirs _ hroot) hdir, hreal.grow hgrows, ?_⟩
  intro n
  unfold InTmp
  rcases hsame (tmpDir st ++ [n]) with heq | ⟨heq, _⟩
  · rw [heq]
  · exact absurd heq (by simp)

/-- **When a revert leaves no temporary files.**  After success, and after a
failure that an object or a mismatch causes, the temporary directory has the
names it had, exactly if no entry whose turn came needed a chunk that could not
be read and, where nothing obstructed one, none was spelled as a new name in
the temporary directory. -/
theorem apply_keepsTmp_iff (X : Crates) (st : Store) (m : Machine) (mf : Manifest)
    (keepExtra : Bool) (hreal : st.Real m.fs) :
    KeepsTmp X st mf keepExtra m ↔ LeavesNothing X st (Turn X st mf m) := by
  cases hcheck : look (precheck X st mf) m with
  | error e m₀ =>
      obtain ⟨herr, rfl⟩ := look_eq_error.mp hcheck
      apply keepsTmp_of_no_turn
      · intro fe s hturn
        obtain ⟨_, hok, _⟩ := hturn
        rw [herr] at hok
        cases hok
      · unfold apply
        rw [bind_apply, hcheck]
  | ok u m₀ =>
      obtain ⟨hchecked, rfl⟩ := look_eq_ok.mp hcheck
      cases hmade : io (createDirAll (tmpDir st)) m₀ with
      | error e m₁ =>
          apply keepsTmp_of_no_turn
          · intro fe s hturn
            obtain ⟨_, _, hok, _⟩ := hturn
            rw [hmade] at hok
            cases hok
          · unfold apply
            rw [bind_apply, hcheck]
            simp only
            rw [bind_apply, hmade]
      | ok u₁ m₁ =>
          obtain ⟨hready, hreal₁, hnames⟩ := inTmp_of_made hreal hmade
          unfold KeepsTmp
          rw [apply_of_made hchecked hmade, turn_eq hchecked hmade, bind_apply]
          cases hpass : writePass X st st.root mf.files m₁ with
          | error e m' =>
              rw [← writePass_stopped hready hreal₁ hpass]
              simp only [hnames]
              exact forall_comm
          | ok restored m₂ =>
              have hthrough : Through X st mf.files m₁ m₂ := writePass_through hready hreal₁ hpass
              rw [← leavesNothing_iff hready hreal₁ hthrough.chunks hthrough.way hthrough.names]
              simp only [hnames]
              have htidy : After (tidy st.root mf keepExtra restored m₂) _ _ :=
                tidy_after hthrough.ready.root
              cases hrun : tidy st.root mf keepExtra restored m₂ with
              | error e m' => exact (htidy.error hrun).elim
              | ok r m' =>
                  simp only [inTmp_of_clean (htidy.ok hrun)]

/-- A fabric with the object `A`, and a file that an earlier process left. -/
def mixedFabric : Fs :=
  Fs.build (Store.fabricNodes ⟨[str "w"]⟩ [] ++
    Store.blobNodes ⟨[str "w"]⟩ (str "objects") (padHash (str "A")) (str "A") ++
    [(tmpDir ⟨[str "w"]⟩, .dir), (tmpDir ⟨[str "w"]⟩ ++ [str "left"], Store.plainFile [])])

/-- An entry whose chunk holds another content. -/
def mixedEntry : FileEntry :=
  { smallEntry (str "d/b") (str "B") with chunks := [padHash (str "A")] }

/-- A snapshot with that entry behind a good one. -/
def mixedManifest : Manifest := smallManifest none none [smallEntry (str "a") (str "A"), mixedEntry]

/-- The states in which the two entries have their turns. -/
def mixedTurn (files : List FileEntry) : Machine :=
  finalState (writePass (smallCrates [] [] []) ⟨[str "w"]⟩ [str "w"] files
    (finalState (io (createDirAll (tmpDir ⟨[str "w"]⟩)) (Machine.start mixedFabric))))

/-- The two turns of the mixed revert. -/
theorem mixed_turns {fe : FileEntry} {s : Machine}
    (h : Turn (smallCrates [] [] []) ⟨[str "w"]⟩ mixedManifest (Machine.start mixedFabric) fe s) :
    (fe = smallEntry (str "a") (str "A") ∧ s = mixedTurn []) ∨
      (fe = mixedEntry ∧ s = mixedTurn [smallEntry (str "a") (str "A")]) := by
  obtain ⟨m₁, -, hmade, pre, post, outs, hsplit, hpass⟩ := h
  have hstate : s = mixedTurn pre := by
    unfold mixedTurn
    rw [hmade]
    show s = finalState (writePass _ ⟨[str "w"]⟩ (Store.root ⟨[str "w"]⟩) pre m₁)
    rw [hpass]
    rfl
  have hfiles : [smallEntry (str "a") (str "A"), mixedEntry] = pre ++ fe :: post := hsplit
  rcases pre with _ | ⟨first, _ | ⟨second, rest⟩⟩
  · exact Or.inl ⟨(List.cons.inj hfiles).1.symm, hstate⟩
  · obtain ⟨hfirst, hrest⟩ := List.cons.inj hfiles
    subst hfirst
    exact Or.inr ⟨(List.cons.inj hrest).1.symm, hstate⟩
  · have hlen := congrArg List.length hfiles
    simp only [List.length_cons, List.length_append, List.length_nil] at hlen
    omega

theorem mixed_loads : ∀ files ∈ [[], [smallEntry (str "a") (str "A")]],
    ((⟨[str "w"]⟩ : Store).getObject (smallCrates [] [] []) (mixedTurn files).fs
      (padHash (str "A"))).toOption = some (str "A") := by
  decide +kernel

/-- Neither entry belongs into the fabric. -/
theorem mixed_places : ∀ p ∈ [str "a", str "d/b"], ∀ rel, sanitizeRel p = .ok rel →
    ∀ n, ¬ tmpDir ⟨[str "w"]⟩ ++ [n] <+: [str "w"] ++ rel.comps := by
  intro p hp rel hrel n hbelow
  have hheads : ∀ p ∈ [str "a", str "d/b"], (sanitizeRel p).toOption.all fun rel =>
      decide (rel.comps.head? ≠ some FABRIC_DIR) := by decide +kernel
  have hhead := hheads p hp
  rw [hrel] at hhead
  obtain ⟨tail, htail⟩ := (List.prefix_append_right_inj [str "w"]).mp
    (show [str "w"] ++ [FABRIC_DIR, str "tmp", n] <+: [str "w"] ++ rel.comps from hbelow)
  have hout := of_decide_eq_true (show decide (rel.comps.head? ≠ some FABRIC_DIR) = true from hhead)
  exact hout (by rw [← htail]; rfl)

/-- Neither turn of the mixed revert leaves a temporary file. -/
theorem mixed_leavesNothing : LeavesNothing (smallCrates [] [] []) ⟨[str "w"]⟩
    (Turn (smallCrates [] [] []) ⟨[str "w"]⟩ mixedManifest (Machine.start mixedFabric)) := by
  constructor
  · intro fe s hturn hunreadable
    obtain ⟨rel, -, c, hc, hlost⟩ := hunreadable
    obtain ⟨hchunk, files, hfiles, hstate⟩ : c = padHash (str "A") ∧
        ∃ files ∈ [[], [smallEntry (str "a") (str "A")]], s = mixedTurn files := by
      rcases mixed_turns hturn with ⟨rfl, rfl⟩ | ⟨rfl, rfl⟩
      · exact ⟨List.mem_singleton.mp hc, [], by simp, rfl⟩
      · exact ⟨List.mem_singleton.mp hc, [smallEntry (str "a") (str "A")], by simp, rfl⟩
    subst hchunk hstate
    exact hlost _ (eq_ok_of_toOption (mixed_loads files hfiles))
  · intro hadds
    obtain ⟨fe, s, n, hturn, rel, hrel, -, -, hplace⟩ := hadds
    have hpath : fe.path ∈ [str "a", str "d/b"] := by
      rcases mixed_turns hturn with ⟨rfl, -⟩ | ⟨rfl, -⟩
      · exact List.mem_cons_self
      · exact List.mem_cons_of_mem _ List.mem_cons_self
    apply absurd _ (mixed_places fe.path hpath rel hrel n)
    rcases hplace with hdirs | ⟨hown, -⟩
    · exact hdirs.trans ((List.prefix_append_right_inj _).mpr (List.dropLast_prefix _))
    · exact ⟨[], by rw [List.append_nil]; exact hown⟩

theorem mixedFabric_real : Store.Real ⟨[str "w"]⟩ (Machine.start mixedFabric).fs :=
  Store.Real.of_keys (by decide +kernel) (by decide +kernel)

/-- The second entry's content does not match, and its temporary file is removed. -/
theorem apply_keepsTmp_iff_mixed :
    succeeded (apply (smallCrates [] [] []) ⟨[str "w"]⟩ [str "w"] mixedManifest false
        (Machine.start mixedFabric)) = false ∧
      KeepsTmp (smallCrates [] [] []) ⟨[str "w"]⟩ mixedManifest false
        (Machine.start mixedFabric) := by
  constructor
  · decide +kernel
  · rw [apply_keepsTmp_iff (smallCrates [] [] []) ⟨[str "w"]⟩ (Machine.start mixedFabric)
      mixedManifest false mixedFabric_real]
    exact mixed_leavesNothing

/-- A fabric without objects. -/
def lostFabric : Fs := Fs.build (Store.fabricNodes ⟨[str "w"]⟩ [])

/-- A snapshot whose only object is lost. -/
def lostManifest : Manifest := smallManifest none none [smallEntry (str "a") (str "A")]

/-- The state in which the entry of the lost object has its turn. -/
def lostTurn : Machine :=
  finalState (io (createDirAll (tmpDir ⟨[str "w"]⟩)) (Machine.start lostFabric))

/-- The turn of the lost revert. -/
theorem lost_turn : Turn (smallCrates [] [] []) ⟨[str "w"]⟩ lostManifest (Machine.start lostFabric)
    (smallEntry (str "a") (str "A")) lostTurn := by
  have hchecked : (precheck (smallCrates [] [] []) ⟨[str "w"]⟩ lostManifest
      (Machine.start lostFabric).fs).toOption = some () := by decide +kernel
  have hmade : succeeded (io (createDirAll (tmpDir ⟨[str "w"]⟩)) (Machine.start lostFabric)) =
      true := by decide +kernel
  exact ⟨lostTurn, eq_ok_of_toOption hchecked, eq_ok_of_succeeded hmade, [], [], [], rfl, rfl⟩

/-- Its chunk cannot be read then. -/
theorem lost_unreadable : Unreadable (smallCrates [] [] []) ⟨[str "w"]⟩
    (smallEntry (str "a") (str "A")) lostTurn := by
  obtain ⟨rel, hrel⟩ : ∃ rel, sanitizeRel (str "a") = .ok rel := ⟨_, rfl⟩
  have hcomps : rel.comps = [str "a"] := by
    have hshape : (sanitizeRel (str "a")).toOption.map RelPath.comps = some [str "a"] := by
      decide +kernel
    rw [hrel] at hshape
    exact Option.some.inj hshape
  have hnodes : lostTurn.fs.get [str "w"] = some .dir ∧ lostTurn.fs.get [str "w", str "a"] = none ∧
      lostTurn.fs.get (ownTmp (tmpDir ⟨[str "w"]⟩) lostTurn.pid lostTurn.tmpCounter) = none ∧
      ¬ ownTmp (tmpDir ⟨[str "w"]⟩) lostTurn.pid lostTurn.tmpCounter <+: [str "w"] ∧
      ((⟨[str "w"]⟩ : Store).getObject (smallCrates [] [] []) lostTurn.fs
        (padHash (str "A"))).toOption = none := by decide +kernel
  obtain ⟨hroot, hnew, hvacant, hapart, hlost⟩ := hnodes
  refine ⟨rel, ⟨hrel, ?_, .inr ?_, hvacant, by rw [hcomps]; exact hapart⟩, padHash (str "A"),
    List.mem_singleton_self _, ?_⟩
  · rw [hcomps]
    intro pre hpre hne
    have hpre : pre <+: [] ++ [str "a"] := hpre
    rcases List.prefix_concat_iff.mp hpre with heq | hnil
    · exact absurd heq hne
    · rw [List.prefix_nil.mp hnil, List.append_nil]
      exact .inl hroot
  · rw [hcomps]
    intro d hd
    cases hnew.symm.trans hd
  · intro data hload
    rw [hload] at hlost
    cases hlost

/-- A revert that misses an object leaves its temporary file. -/
theorem lost_object_leaves_tmp : ¬ KeepsTmp (smallCrates [] [] []) ⟨[str "w"]⟩ lostManifest false
    (Machine.start lostFabric) := by
  intro hkeeps
  have hrun : succeeded (apply (smallCrates [] [] []) ⟨[str "w"]⟩ [str "w"] lostManifest false
      (Machine.start lostFabric)) = false := by decide +kernel
  have hleft : (finalState (apply (smallCrates [] [] []) ⟨[str "w"]⟩ [str "w"] lostManifest false
        (Machine.start lostFabric))).fs.get
        (tmpDir ⟨[str "w"]⟩ ++ [tmpName 1 0 (str "revert")]) ≠ none ∧
      lostFabric.get (tmpDir ⟨[str "w"]⟩ ++ [tmpName 1 0 (str "revert")]) = none := by
    decide +kernel
  obtain ⟨hin, hnew⟩ := hleft
  obtain ⟨e, herr⟩ := exists_of_failed hrun
  have hfails : CopyFails (smallCrates [] [] []) ⟨[str "w"]⟩ (smallEntry (str "a") (str "A"))
      lostTurn := by
    have hdirs : lostTurn.fs.get [str "w"] = some .dir ∧
        lostTurn.fs.get (tmpDir ⟨[str "w"]⟩) = some .dir := by decide +kernel
    exact copyFails_of_unreadable (ready_of_dir hdirs.1 hdirs.2)
      (Store.Real.of_keys (by decide +kernel) (by decide +kernel)) lost_unreadable
  have hsame := hkeeps (tmpName 1 0 (str "revert"))
  unfold Store.root at hsame
  rw [herr] at hsame
  exact (hsame ⟨_, _, lost_turn, hfails⟩).mp hin hnew

end Revert

end Respawn
