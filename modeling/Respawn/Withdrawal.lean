import Mathlib.Data.List.Find
import Respawn.Agreement
import Respawn.Landing
import Respawn.Loading

/-!
# What undoing an actor lands on

`revert --actor` computes a manifest without the actor's work, applies it with
the extra files kept, removes the other paths that the actor touched, and
snapshots what is then there.  The last step reads the `.fabricignore` of the
tree that the others made, so it sees other files than the first one did:

* `Undone` — what the steps before the snapshot do to the worktree;
* `revertActor_lands_iff` — HEAD and the tree are what was computed exactly when
  the `.fabricignore` that is left hides no path of it, and shows no file that
  the old one hid or that stood where no walk gets to.
-/

namespace Respawn

open ByteStr FileTree StateLogic

variable (X : Crates) (st : Store)

namespace Revert

/-- A path as snapshots list it: canonical, and not at an excluded place. -/
structure Ordinary (p : Bytes) : Prop where
  canonical : Canonical p
  included : ∀ rel, sanitizeRel p = .ok rel → excluded rel.comps = false

/-- The names are valid UTF-8 without backslash. -/
def Plain (rel : Path) : Prop := ∀ n ∈ rel, validUtf8 n = true ∧ backslash ∉ n

/-- The tree `fs'` has the files of the manifest, has lost the others of the
touched paths, and is `fs` elsewhere. -/
structure Undone (files : List FileEntry) (touched : List Bytes) (fs fs' : Fs) : Prop where
  plain : PlainLeaves st.root fs'
  spelled : ∀ fe ∈ files, ∃ rel, Plain rel ∧ relStr rel = fe.path ∧ excluded rel = false ∧
    rel ≠ [] ∧ ∀ n ∈ rel, ValidName n
  places : ∀ rel, Plain rel → excluded rel = false → rel ≠ [] → (∀ n ∈ rel, ValidName n) →
    match entryAt files (relStr rel) with
    | some fe => ∃ d, fs'.leaf (st.root ++ rel) = some (.file d) ∧ X.blake3 d.bytes = fe.content
    | none => fs'.leaf (st.root ++ rel) =
        if relStr rel ∈ touched then none else fs.leaf (st.root ++ rel)

/-- The files in play have these contents at these paths, and no others. -/
def TreeHas (files : List FileEntry) (fs : Fs) : Prop :=
  ∀ p c, (∃ rel d, InPlay X st fs rel d ∧ relStr rel = p ∧ X.blake3 d.bytes = c) ↔
    stateOf files p = some c

/-- HEAD is the hash of a manifest that is stored and has these contents. -/
def HeadHas (files : List FileEntry) (id : Hash) (fs : Fs) : Prop :=
  st.head fs = .ok (some id) ∧ ∃ mf : Manifest, id = X.blake3 (mf.serialize X) ∧
    (∃ d, fs.get (st.manifestPath id) = some (.file d) ∧ d.bytes = mf.serialize X) ∧
    ∀ p, stateOf mf.files p = stateOf files p

/-- HEAD and the tree have the contents of this manifest. -/
structure Lands (files : List FileEntry) (id : Hash) (fs : Fs) : Prop where
  head : HeadHas X st files id fs
  tree : TreeHas X st files fs

/-- What stands in the place of a hash among the manifests is a file with the
bytes of the manifest of that hash: the store is sound and hashes do not collide. -/
def Named (fs : Fs) : Prop :=
  ∀ g x, fs.get (st.manifestPath g) = some x → ∃ d, x = .file d ∧
    ∀ mf : Manifest, X.blake3 (mf.serialize X) = g → d.bytes = mf.serialize X

/-- The `.fabricignore` of `fs'` hides no path of the manifest, and of the files
that the one of `fs` hid, or that stood in a directory that cannot be listed, and
that the undo left alone, it shows purged ones only. -/
structure SeesUndo (files : List FileEntry) (touched : List Bytes) (fs fs' : Fs) : Prop where
  shown : ∀ fe ∈ files,
    Snapshot.ignored (Snapshot.ignorePatterns st.root fs') fe.path = false
  hidden : ∀ rel d, fs.get (st.root ++ rel) = some (.file d) → excluded rel = false →
    Snapshot.ignored (Snapshot.ignorePatterns st.root fs) (relStr rel) = true ∨
      ¬ fs.Listed st.root rel →
    relStr rel ∉ touched → relStr rel ∉ files.map FileEntry.path →
    Snapshot.ignored (Snapshot.ignorePatterns st.root fs') (relStr rel) = true ∨
      isPurged X st (relStr rel) (X.blake3 d.bytes) fs = .ok true

variable {X st} {fs fs' : Fs} {files : List FileEntry} {touched : List Bytes}

/-! ## Paths and places -/

/-- What stands in a worktree under plain names has a plain place. -/
theorem PlainLeaves.place (h : PlainLeaves st.root fs) (hroot : fs.get st.root = some .dir)
    {rel : Path} {x : Node} (hex : excluded rel = false)
    (hx : fs.leaf (st.root ++ rel) = some x) :
    Plain rel ∧ rel ≠ [] ∧ ∀ n ∈ rel, ValidName n := by
  obtain ⟨hget, hleaf⟩ := fs.leaf_eq_some.mp hx
  exact ⟨h rel x hex hx, rel_ne_nil hroot hget hleaf, validName_of_rel hget⟩

/-- Among plain names a canonical path and its place decide each other. -/
theorem comps_eq_iff {p : Bytes} {r : RelPath} {rel : Path} (hcanonical : Canonical p)
    (hr : sanitizeRel p = .ok r) (hplain : Plain rel) (hne : rel ≠ [])
    (hvalid : ∀ n ∈ rel, ValidName n) : r.comps = rel ↔ p = relStr rel := by
  constructor
  · intro h
    rw [← h]
    exact (hcanonical.spelled hr).symm
  · intro h
    obtain ⟨hjoin, _, _⟩ := hcanonical.read hr
    rw [relStr_eq_joinSlash (fun n hn => (hplain n hn).1) fun n hn => (hplain n hn).2, hjoin] at h
    exact joinSlash_injective r.nonempty hne r.valid hvalid h

/-- An entry is for a plain path exactly if it is spelled as the path. -/
theorem destination_iff {root rel : Path} {fe : FileEntry} (hcanonical : Canonical fe.path)
    (hread : ∃ r, sanitizeRel fe.path = .ok r) (hplain : Plain rel) (hne : rel ≠ [])
    (hvalid : ∀ n ∈ rel, ValidName n) :
    destination root fe = some (root ++ rel) ↔ fe.path = relStr rel := by
  obtain ⟨r, hr⟩ := hread
  have hdest : destination root fe = some (root ++ r.comps) := by
    simp only [destination, hr]
  rw [hdest, Option.some.injEq, List.append_cancel_left_eq]
  exact comps_eq_iff hcanonical hr hplain hne hvalid

/-- The last entry for a place is the entry for its path. -/
theorem lastAt_eq_entryAt {root rel : Path}
    (hfiles : ∀ fe ∈ files, Canonical fe.path ∧ ∃ r, sanitizeRel fe.path = .ok r)
    (hplain : Plain rel) (hne : rel ≠ []) (hvalid : ∀ n ∈ rel, ValidName n) :
    lastAt root files (root ++ rel) = entryAt files (relStr rel) := by
  unfold lastAt entryAt
  apply List.find?_congr
  intro fe hfe
  obtain ⟨hcanonical, hread⟩ := hfiles fe (List.mem_reverse.mp hfe)
  exact decide_eq_decide.mpr (destination_iff hcanonical hread hplain hne hvalid)

/-! ## The tree and the manifest -/

/-- What is purged is told by the tombstones. -/
theorem isPurged_iff {gs : Fs} {tombs : List Tombstone} (htombs : tombstones X st gs = .ok tombs)
    {p : Bytes} {c : Hash} {b : Bool} : isPurged X st p c gs = .ok b ↔
      (tombs.any fun t => t.path = p ∨ t.content = hashHex c) = b := by
  unfold isPurged
  rw [htombs]
  simp only [Except.ok.injEq]

namespace Undone

variable (h : Undone X st files touched fs fs')

include h

/-- An entry has its file. -/
theorem file {p : Bytes} {fe : FileEntry} (hp : entryAt files p = some fe) :
    ∃ rel d, relStr rel = p ∧ excluded rel = false ∧ fs'.get (st.root ++ rel) = some (.file d) ∧
      X.blake3 d.bytes = fe.content := by
  obtain ⟨hfe, rfl⟩ := mem_of_entryAt hp
  obtain ⟨rel, hplain, hpath, hex, hne, hvalid⟩ := h.spelled fe hfe
  have hplace := h.places rel hplain hex hne hvalid
  rw [hpath, hp] at hplace
  obtain ⟨d, hd, hcontent⟩ := hplace
  exact ⟨rel, d, hpath, hex, (fs'.leaf_eq_some.mp hd).1, hcontent⟩

/-- A file is that of an entry, or was there and is not touched. -/
theorem file_cases (hroot : fs'.get st.root = some .dir) {rel : Path} {d : FileData}
    (hex : excluded rel = false) (hd : fs'.get (st.root ++ rel) = some (.file d)) :
    stateOf files (relStr rel) = some (X.blake3 d.bytes) ∨
      entryAt files (relStr rel) = none ∧ relStr rel ∉ touched ∧
        fs.get (st.root ++ rel) = some (.file d) := by
  have hleaf : fs'.leaf (st.root ++ rel) = some (.file d) :=
    fs'.leaf_eq_some.mpr ⟨hd, by simp⟩
  obtain ⟨hplain, hne, hvalid⟩ := h.plain.place hroot hex hleaf
  have hplace := h.places rel hplain hex hne hvalid
  cases hentry : entryAt files (relStr rel) with
  | some fe =>
      rw [hentry] at hplace
      obtain ⟨d', hd', hcontent⟩ := hplace
      rw [hleaf] at hd'
      cases hd'
      left
      rw [stateOf, hentry, Option.map_some, hcontent]
  | none =>
      rw [hentry] at hplace
      have hsame : fs'.leaf (st.root ++ rel) =
          if relStr rel ∈ touched then none else fs.leaf (st.root ++ rel) := hplace
      rw [hleaf] at hsame
      by_cases htouched : relStr rel ∈ touched
      · rw [if_pos htouched] at hsame
        cases hsame
      · rw [if_neg htouched] at hsame
        exact .inr ⟨rfl, htouched, (fs.leaf_eq_some.mp hsame.symm).1⟩

/-- A file that the undo is not about stays. -/
theorem kept (hroot : fs.get st.root = some .dir) (hplain : PlainLeaves st.root fs) {rel : Path}
    {d : FileData} (hex : excluded rel = false) (hd : fs.get (st.root ++ rel) = some (.file d))
    (htouched : relStr rel ∉ touched) (hnone : entryAt files (relStr rel) = none) :
    fs'.get (st.root ++ rel) = some (.file d) := by
  have hleaf : fs.leaf (st.root ++ rel) = some (.file d) := fs.leaf_eq_some.mpr ⟨hd, by simp⟩
  obtain ⟨hnames, hne, hvalid⟩ := hplain.place hroot hex hleaf
  have hplace := h.places rel hnames hex hne hvalid
  rw [hnone] at hplace
  have hsame : fs'.leaf (st.root ++ rel) =
      if relStr rel ∈ touched then none else fs.leaf (st.root ++ rel) := hplace
  rw [if_neg htouched, hleaf] at hsame
  exact (fs'.leaf_eq_some.mp hsame).1

/-- No link comes to stand in the place of `.fabricignore`. -/
theorem ignore_no_link
    (hlink : ∀ t, fs.get (st.root ++ [str ".fabricignore"]) ≠ some (.symlink t)) (t : Bytes) :
    fs'.get (st.root ++ [str ".fabricignore"]) ≠ some (.symlink t) := by
  intro ht
  have hleaf : fs'.leaf (st.root ++ [str ".fabricignore"]) = some (.symlink t) :=
    fs'.leaf_eq_some.mpr ⟨ht, by simp⟩
  have hplace := h.places [str ".fabricignore"] (by unfold Plain; decide) (by decide) (by simp)
    (by decide)
  cases hentry : entryAt files (relStr [str ".fabricignore"]) with
  | some fe =>
      rw [hentry] at hplace
      obtain ⟨d, hd, _⟩ := hplace
      rw [hleaf] at hd
      cases hd
  | none =>
      simp only [hentry, hleaf] at hplace
      split at hplace
      · cases hplace
      · exact hlink t (fs.leaf_eq_some.mp hplace.symm).1

variable {tombs : List Tombstone}

/-- Where the tree is what was computed, the undo can be seen. -/
theorem seesUndo_of_treeHas (hroot : fs.get st.root = some .dir) (hplain : PlainLeaves st.root fs)
    (htombs : tombstones X st fs = .ok tombs) (htombs' : tombstones X st fs' = .ok tombs)
    (htree : TreeHas X st files fs') : SeesUndo X st files touched fs fs' := by
  refine ⟨?_, ?_⟩
  · intro fe hfe
    have hsome : entryAt files fe.path ≠ none := fun hno => entryAt_eq_none.mp hno fe hfe rfl
    obtain ⟨fe', hfe'⟩ := Option.ne_none_iff_exists'.mp hsome
    obtain ⟨rel, d, ht, hpath, _⟩ := (htree fe.path fe'.content).mpr (by
      rw [stateOf, hfe', Option.map_some])
    rw [← hpath]
    exact ht.kept
  · intro rel d hd hex _ htouched hno
    rw [not_mem_paths_iff] at hno
    have hd' := h.kept hroot hplain hex hd htouched hno
    by_contra hcon
    rw [not_or, Bool.not_eq_true, isPurged_iff htombs, Bool.not_eq_true] at hcon
    obtain ⟨hshown, hunpurged⟩ := hcon
    have ht : InPlay X st fs' rel d := ⟨hd', hex, hshown, (isPurged_iff htombs').mpr hunpurged⟩
    have hstate := (htree _ _).mp ⟨rel, d, ht, rfl, rfl⟩
    rw [stateOf, hno] at hstate
    cases hstate

/-- Where the undo can be seen, the tree is what was computed, if all that was in
sight is in the manifest or touched. -/
theorem treeHas_of_seesUndo (hroot' : fs'.get st.root = some .dir)
    (hseen : ∀ rel d, InSight st.root fs rel d →
      relStr rel ∈ touched ∨ entryAt files (relStr rel) ≠ none)
    (htombs : tombstones X st fs = .ok tombs) (htombs' : tombstones X st fs' = .ok tombs)
    (hnone : NonePurged tombs files) (hsees : SeesUndo X st files touched fs fs') :
    TreeHas X st files fs' := by
  intro p c
  constructor
  · intro hex
    obtain ⟨rel, d, ht, rfl, rfl⟩ := hex
    rcases h.file_cases hroot' ht.included ht.file with hstate | ⟨hno, htouched, hd⟩
    · exact hstate
    · -- a file left alone was hidden before, for else it is touched or listed
      have hhidden : Snapshot.ignored (Snapshot.ignorePatterns st.root fs) (relStr rel) = true ∨
          ¬ fs.Listed st.root rel := by
        by_contra hcon
        obtain ⟨hold, hlisted⟩ := not_or.mp hcon
        rcases hseen rel d ⟨hd, ht.included, Bool.eq_false_iff.mpr hold, not_not.mp hlisted⟩ with
          hin | hin
        · exact absurd hin htouched
        · exact absurd hno hin
      rcases hsees.hidden rel d hd ht.included hhidden htouched (not_mem_paths_iff.mpr hno) with
        hig | hpurged
      · rw [ht.kept] at hig
        cases hig
      · have hunpurged := (isPurged_iff htombs').mp ht.unpurged
        rw [(isPurged_iff htombs).mp hpurged] at hunpurged
        cases hunpurged
  · intro hstate
    obtain ⟨fe, hentry, rfl⟩ := Option.map_eq_some_iff.mp hstate
    obtain ⟨rel, d, rfl, hex, hd, hcontent⟩ := h.file hentry
    obtain ⟨hfe, hpath⟩ := mem_of_entryAt hentry
    refine ⟨rel, d, ⟨hd, hex, ?_, (isPurged_iff htombs').mpr ?_⟩, rfl, hcontent⟩
    · rw [← hpath]
      exact hsees.shown fe hfe
    · rw [hcontent]
      simp only [List.any_eq_false, decide_eq_true_eq, not_or]
      intro t ht
      rw [← hpath]
      exact hnone fe hfe t ht

/-- **When the tree is what was computed.**  All that was in sight is in the
manifest or touched, and nothing in the manifest is purged. -/
theorem treeHas_iff (hroot : fs.get st.root = some .dir)
    (hroot' : fs'.get st.root = some .dir) (hplain : PlainLeaves st.root fs)
    (hseen : ∀ rel d, InSight st.root fs rel d →
      relStr rel ∈ touched ∨ entryAt files (relStr rel) ≠ none)
    (htombs : tombstones X st fs = .ok tombs) (htombs' : tombstones X st fs' = .ok tombs)
    (hnone : NonePurged tombs files) :
    TreeHas X st files fs' ↔ SeesUndo X st files touched fs fs' :=
  ⟨h.seesUndo_of_treeHas hroot hplain htombs htombs',
    h.treeHas_of_seesUndo hroot' hseen htombs htombs' hnone⟩

end Undone

/-! ## What is computed -/

/-- HEAD's chain is that of the files of HEAD and of the manifests. -/
theorem manifestChain_congr (hreal : st.Real fs) (hreal' : st.Real fs')
    (hsame : ∀ g, fs'.get (st.manifestPath g) = fs.get (st.manifestPath g)) {n : Nat}
    {cur : Option Hash} {chain : List Manifest} (h : manifestChain X st fs n cur = .ok chain) :
    manifestChain X st fs' n cur = .ok chain := by
  induction n generalizing cur chain with
  | zero =>
      cases cur with
      | none => exact h
      | some id => cases h
  | succ n ih =>
      cases cur with
      | none => exact h
      | some id =>
          unfold manifestChain at h ⊢
          cases hload : Snapshot.load X st fs id with
          | error e =>
              rw [hload] at h
              cases h
          | ok mf =>
              rw [hload] at h
              simp only at h
              obtain ⟨d, hd, hdecode⟩ := (load_eq_ok hreal).mp hload
              have hload' : Snapshot.load X st fs' id = .ok mf :=
                (load_eq_ok hreal').mpr ⟨d, (hsame id).trans hd, hdecode⟩
              rw [hload']
              simp only
              cases hrest : manifestChain X st fs n mf.parent with
              | error e =>
                  rw [hrest] at h
                  cases h
              | ok older =>
                  rw [hrest] at h
                  rw [ih hrest]
                  exact h

/-- The undo is that of the files of HEAD and of the manifests. -/
theorem surgicalManifest_congr {actor : Bytes} {plan : Manifest × List Bytes}
    (hreal : st.Real fs) (hreal' : st.Real fs') (hhead : fs'.get st.headPath = fs.get st.headPath)
    (hsame : ∀ g, fs'.get (st.manifestPath g) = fs.get (st.manifestPath g))
    (h : surgicalManifest X st actor fs = .ok plan) :
    surgicalManifest X st actor fs' = .ok plan := by
  have hchains : ∀ chain, headManifests X st fs = .ok chain →
      headManifests X st fs' = .ok chain := by
    intro chain hchain
    unfold headManifests at hchain ⊢
    rw [Snapshot.head_congr hreal hreal' hhead]
    cases hh : st.head fs with
    | error e =>
        rw [hh] at hchain
        cases hchain
    | ok cur =>
        rw [hh] at hchain
        exact manifestChain_congr hreal hreal' hsame hchain
  unfold surgicalManifest at h ⊢
  cases hchain : headManifests X st fs with
  | error e =>
      rw [hchain] at h
      cases h
  | ok chain =>
      rw [hchain] at h
      rw [hchains chain hchain]
      exact h

/-- What the undo starts from is the manifest that HEAD loads. -/
theorem newestFiles_of_head {chain : List Manifest} {head : Hash} {cur : Manifest}
    (hchain : headManifests X st fs = .ok chain) (hhead : st.head fs = .ok (some head))
    (hload : Snapshot.load X st fs head = .ok cur) : newestFiles chain = cur.files := by
  unfold headManifests at hchain
  rw [hhead] at hchain
  simp only [MAX_CHAIN, manifestChain, hload] at hchain
  split at hchain
  · cases hchain
  · cases hchain
    rfl

end Revert

/-! ## The steps before the snapshot -/

namespace Cli

variable {X st} {m m' : Machine}

/-- Removing a path of the actor takes away the file or link there, and nothing else. -/
theorem removeActorPath_ok {p : Bytes} (hroot : m.fs.get st.root = some .dir)
    (hfile : ∀ rel, sanitizeRel p = .ok rel → rel.dirOnly = false)
    (h : removeActorPath st p m = .ok () m') :
    ∃ rel, sanitizeRel p = .ok rel ∧
      ∀ q, m'.fs.leaf q = if q = st.root ++ rel.comps then none else m.fs.leaf q := by
  obtain ⟨rel, m₁, hdest, hrest⟩ := bind_eq_ok.mp h
  obtain ⟨hdest, rfl⟩ := look_eq_ok.mp hdest
  obtain ⟨hrel, hclear⟩ := (Revert.resolveDest_eq_ok hroot).mp hdest
  refine ⟨rel, hrel, ?_⟩
  obtain ⟨node, m₂, hnode, hgone⟩ := bind_eq_ok.mp hrest
  obtain ⟨hnode, rfl⟩ := look_eq_ok.mp hnode
  rw [Revert.RelPath.under_plain (hfile rel hrel)] at hnode hgone
  have hvalid := Revert.valid_under hroot rel
  have hmeta : m₂.fs.symlinkMetadata (st.root ++ rel.comps) = _ :=
    Revert.symlinkMetadata_of_clear hvalid (by simp [rel.nonempty]) (by
      intro pre hpre hne
      rcases List.prefix_or_prefix_of_prefix hpre (List.prefix_append st.root _) with hup | hin
      · exact .inl (Fs.dir_of_prefix hroot hup)
      · obtain ⟨tail, rfl⟩ := hin
        exact hclear tail ((List.prefix_append_right_inj st.root).mp hpre)
          fun heq => hne (by rw [heq]))
  cases hnode
  rw [hmeta] at hgone
  have hsame : m₂.fs.leaf (st.root ++ rel.comps) = none →
      ∀ q, m₂.fs.leaf q = if q = st.root ++ rel.comps then none else m₂.fs.leaf q := by
    intro hnone q
    by_cases hq : q = st.root ++ rel.comps
    · rw [if_pos hq, hq, hnone]
    · rw [if_neg hq]
  have hremoved : ∀ x, m₂.fs.get (st.root ++ rel.comps) = some x →
      io (removeFile (st.root ++ rel.comps)) m₂ = .ok () m' →
      ∀ q, m'.fs.leaf q = if q = st.root ++ rel.comps then none else m₂.fs.leaf q := by
    intro x hx hrun q
    obtain ⟨w, hw, rfl⟩ := io_eq_ok.mp hrun
    obtain ⟨r, _, hres, _, rfl⟩ := removeFile_ok hw
    have hself : m₂.fs.resolve false (st.root ++ rel.comps) = .ok (st.root ++ rel.comps) :=
      Fs.resolve_of_get hx (by simp)
    cases hself.symm.trans hres
    exact Revert.leaf_exec_unlink _ _ q
  cases hx : m₂.fs.get (st.root ++ rel.comps) with
  | none =>
      simp only [hx] at hgone
      cases hgone
      exact hsame (Fs.leaf_eq_none _ |>.mpr (.inl hx))
  | some x =>
      simp only [hx] at hgone
      cases x with
      | dir =>
          cases hgone
          exact hsame (Fs.leaf_eq_none _ |>.mpr (.inr hx))
      | file d => exact hremoved _ hx hgone
      | symlink t => exact hremoved _ hx hgone

/-- The loop takes away what stands at the touched paths that the manifest does
not have, and nothing else. -/
theorem removeActorPaths_ok {vm : Manifest} {touched : List Bytes} (hreal : st.Real m.fs)
    (hfile : ∀ p ∈ touched, p ∉ vm.files.map FileEntry.path →
      ∀ rel, sanitizeRel p = .ok rel → rel.dirOnly = false)
    (h : removeActorPaths st vm touched m = .ok () m') :
    (∀ q, (∃ p ∈ touched, p ∉ vm.files.map FileEntry.path ∧ Spells st.root p q) →
      m'.fs.leaf q = none) ∧
    (∀ q, (∀ p ∈ touched, p ∉ vm.files.map FileEntry.path → ¬ Spells st.root p q) →
      m'.fs.leaf q = m.fs.leaf q) ∧
    ∀ p ∈ touched, p ∉ vm.files.map FileEntry.path → ∃ rel, sanitizeRel p = .ok rel := by
  induction touched generalizing m with
  | nil =>
      cases h
      exact ⟨by simp, fun _ _ => rfl, by simp⟩
  | cons p rest ih =>
      obtain ⟨_, m₁, hfirst, hrest⟩ := bind_eq_ok.mp h
      have hfile' := fun q hq => hfile q (List.mem_cons_of_mem _ hq)
      by_cases hp : p ∈ vm.files.map FileEntry.path
      · simp only [if_pos hp] at hfirst
        cases hfirst
        obtain ⟨hgone, hkept, hread⟩ := ih hreal hfile' hrest
        refine ⟨?_, ?_, ?_⟩
        · rintro q ⟨p', hp', hnot, hspells⟩
          rcases List.mem_cons.mp hp' with rfl | hin
          · exact absurd hp hnot
          · exact hgone q ⟨p', hin, hnot, hspells⟩
        · intro q hq
          exact hkept q fun p' hp' => hq p' (List.mem_cons_of_mem _ hp')
        · intro p' hp' hnot
          rcases List.mem_cons.mp hp' with rfl | hin
          · exact absurd hp hnot
          · exact hread p' hin hnot
      · simp only [if_neg hp] at hfirst
        obtain ⟨rel, hrel, hleaf⟩ := removeActorPath_ok
          (Fs.dir_of_prefix hreal.dir (List.prefix_append _ _))
          (hfile p List.mem_cons_self hp) hfirst
        have hreal₁ : st.Real m₁.fs := ((removeActorPath_touches hreal).ok hfirst).real
        obtain ⟨hgone, hkept, hread⟩ := ih hreal₁ hfile' hrest
        refine ⟨?_, ?_, ?_⟩
        · rintro q ⟨p', hp', hnot, hspells⟩
          by_cases hlater : ∃ p'' ∈ rest, p'' ∉ vm.files.map FileEntry.path ∧
              Spells st.root p'' q
          · exact hgone q hlater
          · -- no later path is there, so what the first step left stays
            have hstays : ∀ p'' ∈ rest, p'' ∉ vm.files.map FileEntry.path →
                ¬ Spells st.root p'' q :=
              fun p'' hp'' hnot'' hs => hlater ⟨p'', hp'', hnot'', hs⟩
            rw [hkept q hstays, hleaf]
            rcases List.mem_cons.mp hp' with rfl | hin
            · obtain ⟨rel', hrel', rfl⟩ := hspells
              cases hrel.symm.trans hrel'
              exact if_pos rfl
            · exact absurd hspells (hstays p' hin hnot)
        · intro q hq
          rw [hkept q fun p' hp' => hq p' (List.mem_cons_of_mem _ hp'), hleaf, if_neg]
          intro heq
          exact hq p List.mem_cons_self hp ⟨rel, hrel, heq⟩
        · intro p' hp' hnot
          rcases List.mem_cons.mp hp' with rfl | hin
          · exact ⟨rel, hrel⟩
          · exact hread p' hin hnot

/-- Removing paths seals nothing. -/
theorem removeActorPaths_sealed {vm : Manifest} {touched : List Bytes} {m : Machine} :
    After (removeActorPaths st vm touched m) (fun _ m' => m'.fs.sealed ⊆ m.fs.sealed)
      (fun _ m' => m'.fs.sealed ⊆ m.fs.sealed) := by
  refine After.forEach (I := fun s : Machine => s.fs.sealed ⊆ m.fs.sealed)
    (List.Subset.refl _) ?_
  intro p _ s hs
  by_cases hkept : p ∈ vm.files.map FileEntry.path
  · rw [if_pos hkept]
    exact hs
  · rw [if_neg hkept]
    unfold removeActorPath
    apply after_look_bind _ fun _ _ => hs
    intro rel _
    apply after_look_bind _ fun _ _ => hs
    intro node _
    have hremove : After (io (removeFile (rel.under st.root)) s)
        (fun _ m' => m'.fs.sealed ⊆ m.fs.sealed) (fun _ m' => m'.fs.sealed ⊆ m.fs.sealed) := by
      apply after_io
      cases hrm : removeFile (rel.under st.root) s.toWorld with
      | error e w =>
          rw [removeFile_error hrm]
          exact hs
      | ok u w =>
          obtain ⟨q, x, _, _, rfl⟩ := removeFile_ok hrm
          exact List.Subset.trans (s.fs.sealed_exec_subset _) hs
    split
    · exact hremove
    · exact hremove
    · exact hs
    · exact hs
    · exact hs

/-- **The steps undo.**  After the manifest was applied and the other touched paths
were removed, each place has what the manifest says, or nothing, or what it had. -/
theorem undone_of_steps {vm : Manifest} {touched : List Bytes} {r : Revert.RevertReport}
    {m₁ m₂ m₃ : Machine} (hreal : st.Real m₁.fs) (hreal₂ : st.Real m₂.fs)
    (hplain : Revert.PlainLeaves st.root m₁.fs)
    (hvm : ∀ fe ∈ vm.files, Revert.Ordinary fe.path)
    (htouched : ∀ p ∈ touched, Revert.Ordinary p)
    (happly : Revert.apply X st st.root vm true m₁ = .ok r m₂)
    (hremove : removeActorPaths st vm touched m₂ = .ok () m₃) :
    Revert.Undone X st vm.files touched m₁.fs m₃.fs := by
  obtain ⟨_, _, hread, fs₂, hrestored, _, _, hkept, _⟩ :=
    Revert.apply_ok (Fs.dir_of_prefix hreal.dir (List.prefix_append _ _)) happly
  -- extra files are kept
  have hleaf₂ : ∀ q, m₂.fs.leaf q = fs₂.leaf q := by
    intro q
    apply hkept
    intro hextra
    cases hextra.1
  have hfiles : ∀ fe ∈ vm.files, Revert.Canonical fe.path ∧ ∃ r, sanitizeRel fe.path = .ok r := by
    intro fe hfe
    obtain ⟨rel, hrel, _⟩ := hread fe hfe
    exact ⟨(hvm fe hfe).canonical, rel, hrel⟩
  obtain ⟨hgone, hstays, hsan⟩ := removeActorPaths_ok hreal₂
    (fun p hp _ rel hrel => ((htouched p hp).canonical.read hrel).2.1) hremove
  have hspells : ∀ {p rel}, p ∈ touched → Revert.Plain rel → rel ≠ [] →
      (∀ n ∈ rel, ValidName n) → Spells st.root p (st.root ++ rel) → p = relStr rel := by
    intro p rel hp hnames hne hvalid hs
    obtain ⟨r, hr, heq⟩ := hs
    exact (Revert.comps_eq_iff (htouched p hp).canonical hr hnames hne hvalid).mp
      (List.append_cancel_left heq).symm
  refine ⟨?_, ?_, ?_⟩
  · intro rel x hex hx
    by_cases hgo : ∃ p ∈ touched, p ∉ vm.files.map FileEntry.path ∧
        Spells st.root p (st.root ++ rel)
    · rw [hgone _ hgo] at hx
      cases hx
    · rw [hstays _ fun p hp hnot hs => hgo ⟨p, hp, hnot, hs⟩, hleaf₂] at hx
      have hat := hrestored (st.root ++ rel)
      cases hlast : Revert.lastAt st.root vm.files (st.root ++ rel) with
      | none =>
          rw [hlast] at hat
          have hsame : fs₂.leaf (st.root ++ rel) = m₁.fs.leaf (st.root ++ rel) := hat
          exact hplain rel x hex (hsame.symm.trans hx)
      | some fe =>
          obtain ⟨hfe, hdest⟩ := Revert.mem_of_lastAt hlast
          obtain ⟨hcanonical, r, hr⟩ := hfiles fe hfe
          simp only [Revert.destination, hr, Option.some.injEq, List.append_cancel_left_eq] at hdest
          rw [← hdest]
          exact (hcanonical.read hr).2.2
  · intro fe hfe
    obtain ⟨hcanonical, r, hr⟩ := hfiles fe hfe
    exact ⟨r.comps, (hcanonical.read hr).2.2, hcanonical.spelled hr, (hvm fe hfe).included r hr,
      r.nonempty, r.valid⟩
  · intro rel hnames hex hne hvalid
    have hat := hrestored (st.root ++ rel)
    rw [Revert.lastAt_eq_entryAt hfiles hnames hne hvalid] at hat
    cases hentry : entryAt vm.files (relStr rel) with
    | some fe =>
        obtain ⟨hfe, hpath⟩ := mem_of_entryAt hentry
        rw [hentry] at hat
        have hnot : ∀ p ∈ touched, p ∉ vm.files.map FileEntry.path →
            ¬ Spells st.root p (st.root ++ rel) := by
          intro p hp hout hs
          rw [hspells hp hnames hne hvalid hs] at hout
          exact hout (List.mem_map.mpr ⟨fe, hfe, hpath⟩)
        simp only [hstays _ hnot, hleaf₂]
        exact hat
    | none =>
        rw [hentry] at hat
        have hout : relStr rel ∉ vm.files.map FileEntry.path := not_mem_paths_iff.mpr hentry
        by_cases hp : relStr rel ∈ touched
        · rw [if_pos hp]
          apply hgone
          obtain ⟨r, hr⟩ := hsan _ hp hout
          refine ⟨_, hp, hout, r, hr, ?_⟩
          rw [(Revert.comps_eq_iff (htouched _ hp).canonical hr hnames hne hvalid).mpr rfl]
        · rw [if_neg hp, hstays, hleaf₂]
          · exact hat
          · intro p hp' _ hs
            exact hp (hspells hp' hnames hne hvalid hs ▸ hp')

/-- What the undo is in terms of the files outside the fabric. -/
theorem undone_congr {files : List FileEntry} {touched : List Bytes} {fs fs' g g' : Fs}
    (h : Revert.Undone X st files touched fs fs')
    (hleaf : ∀ rel, Revert.excluded rel = false →
      g.leaf (st.root ++ rel) = fs.leaf (st.root ++ rel))
    (hleaf' : ∀ rel, Revert.excluded rel = false →
      g'.leaf (st.root ++ rel) = fs'.leaf (st.root ++ rel)) :
    Revert.Undone X st files touched g g' := by
  refine ⟨?_, h.spelled, ?_⟩
  · intro rel x hex hx
    rw [hleaf' rel hex] at hx
    exact h.plain rel x hex hx
  · intro rel hnames hex hne hvalid
    rw [hleaf rel hex, hleaf' rel hex]
    exact h.places rel hnames hex hne hvalid

/-- The files in play are told by what lies outside the fabric, and the tombstones. -/
theorem treeHas_congr {files : List FileEntry} {fs fs' : Fs} (hreal : st.Real fs)
    (hreal' : st.Real fs') (hout : ∀ q, ¬ st.fabricDir <+: q → fs'.get q = fs.get q)
    (htomb : fs'.get (tombstonePath st) = fs.get (tombstonePath st))
    (hlink : ∀ t, fs.get (st.root ++ [str ".fabricignore"]) ≠ some (.symlink t)) :
    Revert.TreeHas X st files fs' ↔ Revert.TreeHas X st files fs := by
  have hignore := Guard.ignorePatterns_congr hreal hreal' hout hlink
  have hplay : ∀ rel d, Revert.InPlay X st fs' rel d ↔ Revert.InPlay X st fs rel d := by
    intro rel d
    constructor
    · exact Guard.inPlay_congr hreal' hreal (fun q hq => (hout q hq).symm) htomb.symm hignore.symm
    · exact Guard.inPlay_congr hreal hreal' hout htomb hignore
  unfold Revert.TreeHas
  simp only [hplay]

/-! ## The command -/

/-- The states a surgical revert passes: `m₁` when the lock is taken, `m₂` when
the manifest is applied, `m₃` when the other paths are removed, `m₄` when the
new manifest is built and `m₅` when it is stored. -/
structure Steps (X : Crates) (st : Store) (actor : Bytes) (m m₁ m₂ m₃ m₄ m₅ m' : Machine)
    (vm : Manifest) (touched : List Bytes) (mf : Manifest) (id : Hash) : Prop where
  lock : st.tryLock m = .ok () m₁
  plan : Revert.surgicalManifest X st actor m₁.fs = .ok (vm, touched)
  passes : Revert.Passes X st false m₁.fs
  apply : ∃ r, Revert.apply X st st.root vm true m₁ = .ok r m₂
  remove : removeActorPaths st vm touched m₂ = .ok () m₃
  build : Snapshot.buildManifest X st st.root (str "surgical undo of actor '" ++ actor ++ str "'")
    none m₃ = .ok mf m₄
  store : Snapshot.storeManifest X st mf m₄ = .ok id m₅
  record : Audit.record X st (str "revert-actor") (actor ++ str " " ++ decimal touched.length ++
    str " paths") m₅ = .ok () m'

/-- A surgical revert that succeeds passes them. -/
theorem steps_of_revertActor {actor : Bytes} {id : Hash}
    (h : revertActor X st actor false m = .ok id m') :
    ∃ m₁ m₂ m₃ m₄ m₅ vm touched mf, Steps X st actor m m₁ m₂ m₃ m₄ m₅ m' vm touched mf id := by
  obtain ⟨_, m₁, hlock, hrest⟩ := bind_eq_ok.mp h
  obtain ⟨plan, m₁', hplan, hrest⟩ := bind_eq_ok.mp hrest
  obtain ⟨hplan, rfl⟩ := look_eq_ok.mp hplan
  obtain ⟨vm, touched⟩ := plan
  obtain ⟨checked, m₂, hchecked, hrest⟩ := bind_eq_ok.mp hrest
  obtain ⟨_, m₂', hgranted, hrest⟩ := bind_eq_ok.mp hrest
  obtain ⟨_, m₃, hremove, hrest⟩ := bind_eq_ok.mp hrest
  obtain ⟨_, m₅, hcreate, hrest⟩ := bind_eq_ok.mp hrest
  obtain ⟨_, m₆, hrecord, hid⟩ := bind_eq_ok.mp hrest
  cases hid
  obtain ⟨mf, m₄, hbuild, hstore⟩ := bind_eq_ok.mp hcreate
  obtain ⟨report, m₁', hreport, hgate⟩ := bind_eq_ok.mp hchecked
  obtain ⟨hreport, rfl⟩ := look_eq_ok.mp hreport
  by_cases hdirty : (Revert.dirty report && !false) = true
  · rw [if_pos hdirty] at hgate
    cases hgate
    cases hgranted
  · rw [if_neg hdirty] at hgate
    obtain ⟨r, m₂'', happly, hr⟩ := bind_eq_ok.mp hgate
    cases hr
    cases hgranted
    exact ⟨_, _, _, _, _, vm, touched, mf, hlock, hplan,
      ⟨report, hreport, Bool.eq_false_iff.mpr hdirty⟩, ⟨_, happly⟩, hremove, hbuild, hstore,
      hrecord⟩

/-- Where the gate passes, what is in sight is touched or in the undo. -/
theorem seen_of_passes {actor : Bytes} {vm : Manifest} {touched : List Bytes} {fs : Fs}
    (hroot : fs.get st.root = some .dir) (hplain : Revert.PlainLeaves st.root fs)
    (hpasses : Revert.Passes X st false fs)
    (hplan : Revert.surgicalManifest X st actor fs = .ok (vm, touched)) {rel : Path}
    {d : FileData} (hsight : InSight st.root fs rel d) :
    relStr rel ∈ touched ∨ entryAt vm.files (relStr rel) ≠ none := by
  obtain ⟨chain, hchain⟩ : ∃ chain, Revert.headManifests X st fs = .ok chain := by
    unfold Revert.surgicalManifest at hplan
    cases hchain : Revert.headManifests X st fs with
    | error e =>
        rw [hchain] at hplan
        cases hplan
    | ok chain => exact ⟨chain, rfl⟩
  obtain ⟨report, hreport, hdirty⟩ := hpasses
  rw [Bool.not_false, Bool.and_true] at hdirty
  unfold Revert.gateReport at hreport
  cases hhead : st.head fs with
  | error e =>
      rw [hhead] at hreport
      cases hreport
  | ok head =>
      cases head with
      | none =>
          unfold Revert.headManifests at hchain
          rw [hhead] at hchain
          cases hchain
          unfold Revert.surgicalManifest Revert.headManifests at hplan
          rw [hhead] at hplan
          cases hplan
      | some h =>
          rw [hhead] at hreport
          simp only at hreport
          cases hload : Snapshot.load X st fs h with
          | error e =>
              rw [hload] at hreport
              cases hreport
          | ok cur =>
              rw [hload] at hreport
              obtain ⟨report', hdetect, hdiffs⟩ :=
                Drift.detect_differences (X := X) hroot hplain cur
              cases hdetect.symm.trans hreport
              have hnone : (report.added, report.modified, report.deleted) = ([], [], []) := by
                simpa [Revert.dirty, and_assoc] using hdirty
              have hstate := (hdiffs.none_iff.mp hnone _ _).mp ⟨rel, d, hsight, rfl, rfl⟩
              obtain ⟨fe, hentry, _⟩ := Option.map_eq_some_iff.mp hstate
              obtain ⟨hfe, hpath⟩ := mem_of_entryAt hentry
              by_cases hp : relStr rel ∈ touched
              · exact .inl hp
              · right
                rw [Revert.mem_paths_iff hchain hplan, Bool.not_eq_true] at hp
                have hin : fe ∈ vm.files := by
                  rw [Revert.mem_surgicalManifest_untouched hchain hplan hp hpath,
                    Revert.newestFiles_of_head hchain hhead hload]
                  exact hfe
                intro hno
                exact entryAt_eq_none.mp hno fe hin hpath

/-- Outside the fabric, or in its directory of temporary files. -/
def Beside (st : Store) (q : Path) : Prop := ¬ st.fabricDir <+: q ∨ Revert.tmpDir st <+: q

/-- A record of the fabric is not beside it. -/
theorem not_beside {n : Name} {rest : Path} (hn : n ≠ str "tmp") :
    ¬ Beside st (st.fabricDir ++ n :: rest) := by
  intro h
  rcases h with hout | htmp
  · exact hout (List.prefix_append _ _)
  · have hin := (List.prefix_append_right_inj st.fabricDir).mp htmp
    exact hn (List.cons_prefix_cons.mp hin).1.symm

namespace Steps

variable {actor : Bytes} {m₁ m₂ m₃ m₄ m₅ : Machine} {vm mf : Manifest} {touched : List Bytes}
  {id : Hash} (h : Steps X st actor m m₁ m₂ m₃ m₄ m₅ m' vm touched mf id)

include h

/-- The lock touches its file. -/
theorem locked_touched (hreal : st.Real m.fs) :
    st.Touched (st.Within [str "lock"]) m.fs m₁.fs :=
  (Store.tryLock_touching m hreal).ok h.lock

/-- The undo touches the worktree and temporary files. -/
theorem undone_touched (hreal : st.Real m₁.fs) (hvm : ∀ fe ∈ vm.files, Revert.Ordinary fe.path)
    (htouched : ∀ p ∈ touched, Revert.Ordinary p) :
    st.Touched (Beside st) m₁.fs m₂.fs ∧ st.Touched (Beside st) m₂.fs m₃.fs := by
  have hout : ∀ p, Revert.Ordinary p → ∀ q, Spells st.root p q → ¬ st.fabricDir <+: q := by
    rintro p hp q ⟨rel, hrel, rfl⟩
    exact Revert.not_fabric_of_not_excluded (hp.included rel hrel)
  obtain ⟨r, happly⟩ := h.apply
  have h₂ : st.Touched (Beside st) m₁.fs m₂.fs := by
    refine ((Revert.apply_touches hreal).ok happly).mono ?_
    intro q hq
    by_cases hin : st.fabricDir <+: q
    · refine .inr (Revert.tmp_of_touches ?_ hq hin)
      intro fe hfe q hdest
      unfold Revert.destination at hdest
      split at hdest
      · case h_1 rel hrel =>
          exact hout fe.path (hvm fe hfe) q ⟨rel, hrel, (Option.some.inj hdest).symm⟩
      · cases hdest
    · exact .inl hin
  refine ⟨h₂, (removeActorPaths_touched h₂.real ?_).ok h.remove⟩
  intro p hp _ q hq
  exact .inl (hout p (htouched p hp) q hq)

/-- The snapshot touches the records that it makes. -/
theorem stored_touched (hreal : st.Real m₃.fs) :
    st.Touched (st.Within (commonNames ++ Snapshot.workNames)) m₃.fs m'.fs := by
  have hcreate : Snapshot.createFromActor X st st.root
      (str "surgical undo of actor '" ++ actor ++ str "'") none m₃ = .ok id m₅ :=
    bind_eq_ok.mpr ⟨mf, m₄, h.build, h.store⟩
  have h₅ := (Snapshot.createFromActor_touching _ _ m₃ hreal).ok hcreate
  have h₆ := (Audit.record_touching _ _ m₅ h₅.real).ok h.record
  exact (h₅.mono fun q hq => hq.mono (by decide)).trans (h₆.mono fun q hq => hq.mono (by decide))

/-- No step before the snapshot seals a directory. -/
theorem sealed_subset (hreal : st.Real m₁.fs) : m₃.fs.sealed ⊆ m.fs.sealed := by
  obtain ⟨r, happly⟩ := h.apply
  have hroot : m₁.fs.get st.root = some .dir :=
    Fs.dir_of_prefix hreal.dir (List.prefix_append _ _)
  have hlocked : m₁.fs.sealed = m.fs.sealed := ((Store.tryLock_addsEmpty m).ok h.lock).sealed
  have happlied : m₂.fs.sealed ⊆ m₁.fs.sealed := (Revert.apply_sealed hroot).ok happly
  have hremoved : m₃.fs.sealed ⊆ m₂.fs.sealed := removeActorPaths_sealed.ok h.remove
  rw [← hlocked]
  exact List.Subset.trans hremoved happlied

/-- **The manifest of the new HEAD** has the contents of the files in play, if a
walk gets to all of them that are listed. -/
theorem headHas (hcdc : ∀ data, (X.fastcdc CDC_MIN CDC_AVG CDC_MAX data).flatten = data)
    (hreal : st.Real m₃.fs) (hplain : Revert.PlainLeaves st.root m₃.fs)
    (hnamed : Revert.Named X st m₃.fs) {files : List FileEntry}
    (htree : Revert.TreeHas X st files m₃.fs)
    (hlisted : ∀ rel d, Revert.InPlay X st m₃.fs rel d → relStr rel ∈ files.map FileEntry.path →
      m₃.fs.Listed st.root rel) : Revert.HeadHas X st files id m'.fs := by
  have hroot : m₃.fs.get st.root = some .dir :=
    Fs.dir_of_prefix hreal.dir (List.prefix_append _ _)
  obtain ⟨_, _, _, _, _, _, hreal₄, hsame⟩ :=
    Snapshot.buildManifest_ok (fun _ => Snapshot.excluded_of_fabric) hreal h.build
  have hstored := Snapshot.storeManifest_ok hreal₄ h.store
  have h₅ := (Snapshot.storeManifest_touching mf m₄ hreal₄).ok h.store
  have h₆ := (Audit.record_touching _ _ m₅ h₅.real).ok h.record
  have hhead : st.head m'.fs = st.head m₅.fs :=
    Snapshot.head_congr h₅.real h₆.real (h₆.frame _ (Store.not_within (by decide) (by decide)))
  have hmanifest : m'.fs.get (st.manifestPath id) = m₅.fs.get (st.manifestPath id) :=
    h₆.frame _ (Store.not_within (by decide) (by decide))
  have hlists := Revert.lists_of_build hcdc hreal hplain h.build
  refine ⟨hhead.trans hstored.head, mf, hstored.named, ?_, ?_⟩
  · rw [hmanifest]
    cases hold : m₃.fs.get (st.manifestPath id) with
    | none => exact hstored.fresh ((hsame id).trans hold)
    | some x =>
        obtain ⟨d, rfl, honly⟩ := hnamed id x hold
        have hsome : m₄.fs.get (st.manifestPath id) = some (.file d) := (hsame id).trans hold
        refine ⟨d, ?_, honly mf hstored.named.symm⟩
        rw [hstored.old (by rw [hsome]; simp), hsome]
  · intro p
    apply Option.ext
    intro c
    rw [Snapshot.stateOf_of_lists hcdc hlists hroot hplain p c, ← htree p c]
    constructor
    · rintro ⟨rel, d, ht, hpc⟩
      exact ⟨rel, d, ht.toInPlay, hpc⟩
    · rintro ⟨rel, d, hplay, hp, hc⟩
      refine ⟨rel, d, ⟨hplay, hlisted rel d hplay ?_⟩, hp, hc⟩
      obtain ⟨fe, hentry, _⟩ := Option.map_eq_some_iff.mp ((htree p c).mp ⟨rel, d, hplay, hp, hc⟩)
      obtain ⟨hfe, hpath⟩ := mem_of_entryAt hentry
      exact List.mem_map.mpr ⟨fe, hfe, hpath.trans hp.symm⟩

/-- Tombstones stay, and the undo was checked against them. -/
theorem tombs (hreal : st.Real m.fs) (hvm : ∀ fe ∈ vm.files, Revert.Ordinary fe.path)
    (htouched : ∀ p ∈ touched, Revert.Ordinary p) :
    m'.fs.get (tombstonePath st) = m₃.fs.get (tombstonePath st) ∧
      ∃ tombs, tombstones X st m.fs = .ok tombs ∧ tombstones X st m'.fs = .ok tombs ∧
        Revert.NonePurged tombs vm.files := by
  have h₁ := h.locked_touched hreal
  obtain ⟨h₂, h₃⟩ := h.undone_touched h₁.real hvm htouched
  have h₆ := h.stored_touched h₃.real
  have htomb₁ : m₁.fs.get (tombstonePath st) = m.fs.get (tombstonePath st) :=
    h₁.frame _ (Store.not_within (by decide) (by decide))
  have htomb₃ : m₃.fs.get (tombstonePath st) = m₁.fs.get (tombstonePath st) :=
    (h₂.trans h₃).frame _ (not_beside (by decide))
  have htomb₆ : m'.fs.get (tombstonePath st) = m₃.fs.get (tombstonePath st) :=
    h₆.frame _ (Store.not_within (by decide) (by decide))
  obtain ⟨r, happly⟩ := h.apply
  have hpre := (Revert.apply_ok (Fs.dir_of_prefix h₁.real.dir (List.prefix_append _ _)) happly).1
  obtain ⟨tombs, htombs, hcheck⟩ : ∃ tombs, tombstones X st m₁.fs = .ok tombs ∧
      Revert.checkTombstones tombs vm.files = .ok () := by
    unfold Revert.precheck at hpre
    split at hpre
    · cases hpre
    · split at hpre
      · cases hpre
      · exact ⟨_, by assumption, hpre⟩
  exact ⟨htomb₆, tombs, (Guard.tombstones_congr h₁.real hreal htomb₁.symm).trans htombs,
    (Guard.tombstones_congr h₁.real h₆.real (htomb₆.trans htomb₃)).trans htombs,
    Revert.checkTombstones_eq_ok_iff.mp hcheck⟩

/-- A file in play that the undo lists stands where its path leads. -/
theorem listed_of_undo (hreal : st.Real m₁.fs) (hreal₃ : st.Real m₃.fs)
    (hplain : Revert.PlainLeaves st.root m₃.fs)
    (hvm : ∀ fe ∈ vm.files, Revert.Ordinary fe.path)
    (hlisted : ∀ fe ∈ vm.files, ∀ rel, sanitizeRel fe.path = .ok rel →
      m.fs.Listed st.root rel.comps)
    {rel : Path} {d : FileData} (hplay : Revert.InPlay X st m₃.fs rel d)
    (hin : relStr rel ∈ vm.files.map FileEntry.path) : m₃.fs.Listed st.root rel := by
  have hroot : m₁.fs.get st.root = some .dir :=
    Fs.dir_of_prefix hreal.dir (List.prefix_append _ _)
  have hroot₃ : m₃.fs.get st.root = some .dir :=
    Fs.dir_of_prefix hreal₃.dir (List.prefix_append _ _)
  obtain ⟨fe, hfe, hpath⟩ := List.mem_map.mp hin
  obtain ⟨hnames, hne, hvalid⟩ := hplain.place hroot₃ hplay.included
    (m₃.fs.leaf_eq_some.mpr ⟨hplay.file, by simp⟩)
  obtain ⟨r, happly⟩ := h.apply
  obtain ⟨_, _, hread, _⟩ := Revert.apply_ok hroot happly
  obtain ⟨rel', hrel, _⟩ := hread fe hfe
  have hcomps : rel'.comps = rel :=
    (Revert.comps_eq_iff (hvm fe hfe).canonical hrel hnames hne hvalid).mpr hpath
  exact (hcomps ▸ hlisted fe hfe rel' hrel).of_subset (h.sealed_subset hreal)

end Steps

/-- **Where undoing an actor lands.**  On a worktree of plain names, with paths
in the undo and in the actor's snapshots as snapshots list them, the former in
directories that can be listed: when `revert --actor` succeeds without force, HEAD
and the files in play have what was computed before if and only if the
`.fabricignore` that is left hides no path of it and shows no file, purged ones
apart, that the old one hid or that stands where no walk gets to. -/
theorem revertActor_lands_iff (X : Crates) (st : Store)
    (hcdc : ∀ data, (X.fastcdc CDC_MIN CDC_AVG CDC_MAX data).flatten = data)
    {actor : Bytes} {m m' : Machine} {vm : Manifest} {touched : List Bytes} {id : Hash}
    (hreal : st.Real m.fs) (hnamed : Revert.Named X st m.fs)
    (hplain : Revert.PlainLeaves st.root m.fs)
    (hlink : ∀ t, m.fs.get (st.root ++ [str ".fabricignore"]) ≠ some (.symlink t))
    (hplan : Revert.surgicalManifest X st actor m.fs = .ok (vm, touched))
    (hvm : ∀ fe ∈ vm.files, Revert.Ordinary fe.path)
    (htouched : ∀ p ∈ touched, Revert.Ordinary p)
    (hlisted : ∀ fe ∈ vm.files, ∀ rel, sanitizeRel fe.path = .ok rel →
      m.fs.Listed st.root rel.comps)
    (h : revertActor X st actor false m = .ok id m') :
    Revert.Lands X st vm.files id m'.fs ↔
      Revert.SeesUndo X st vm.files touched m.fs m'.fs := by
  obtain ⟨m₁, m₂, m₃, m₄, m₅, vm', touched', mf, hsteps⟩ := steps_of_revertActor h
  have h₁ := hsteps.locked_touched hreal
  have hsealed₁ : m₁.fs.sealed = m.fs.sealed :=
    ((Store.tryLock_addsEmpty m).ok hsteps.lock).sealed
  have hmanifest₁ : ∀ g, m₁.fs.get (st.manifestPath g) = m.fs.get (st.manifestPath g) :=
    fun g => h₁.frame _ (Store.not_within (by decide) (by decide))
  -- the undo that the command computes is the one computed before
  have hplan₁ := Revert.surgicalManifest_congr hreal h₁.real
    (h₁.frame _ (Store.not_within (by decide) (by decide))) hmanifest₁ hplan
  cases hsteps.plan.symm.trans hplan₁
  obtain ⟨h₂, h₃⟩ := hsteps.undone_touched h₁.real hvm htouched
  have h₆ := hsteps.stored_touched h₃.real
  have hout₁ : ∀ q, ¬ st.fabricDir <+: q → m₁.fs.get q = m.fs.get q :=
    fun q hq => h₁.frame q fun hw => hq hw.fabric
  have hout₆ : ∀ q, ¬ st.fabricDir <+: q → m'.fs.get q = m₃.fs.get q :=
    fun q hq => h₆.frame q fun hw => hq hw.fabric
  have hleaf : ∀ {fs fs' : Fs}, (∀ q, ¬ st.fabricDir <+: q → fs'.get q = fs.get q) →
      ∀ rel, Revert.excluded rel = false →
        fs'.leaf (st.root ++ rel) = fs.leaf (st.root ++ rel) := by
    intro fs fs' hout rel hex
    unfold Fs.leaf
    rw [hout _ (Revert.not_fabric_of_not_excluded hex)]
  have hplain₁ : Revert.PlainLeaves st.root m₁.fs := by
    intro rel x hex hx
    rw [hleaf hout₁ rel hex] at hx
    exact hplain rel x hex hx
  obtain ⟨r, happly⟩ := hsteps.apply
  have hundone₃ := undone_of_steps h₁.real h₂.real hplain₁ hvm htouched happly hsteps.remove
  have hundone : Revert.Undone X st vm.files touched m.fs m'.fs :=
    undone_congr hundone₃ (fun rel hex => (hleaf hout₁ rel hex).symm) (hleaf hout₆)
  have hroot : ∀ {fs : Fs}, st.Real fs → fs.get st.root = some .dir :=
    fun hr => Fs.dir_of_prefix hr.dir (List.prefix_append _ _)
  have hseen : ∀ rel d, InSight st.root m.fs rel d →
      relStr rel ∈ touched ∨ entryAt vm.files (relStr rel) ≠ none :=
    fun rel d hsight => seen_of_passes (hroot h₁.real) hplain₁ hsteps.passes hsteps.plan
      (Snapshot.inSight_congr hsight hreal h₁.real hout₁ hsealed₁ hlink)
  obtain ⟨htomb₆, tombs, htombs, htombs₆, hunpurged⟩ := hsteps.tombs hreal hvm htouched
  rw [← hundone.treeHas_iff (hroot hreal) (hroot h₆.real) hplain hseen htombs htombs₆ hunpurged]
  refine ⟨fun hlands => hlands.tree, fun htree => ⟨?_, htree⟩⟩
  -- the snapshot is of the tree that is left
  have hlink₁ : ∀ t, m₁.fs.get (st.root ++ [str ".fabricignore"]) ≠ some (.symlink t) := by
    intro t
    rw [hout₁ _ Guard.ignorePath_outside]
    exact hlink t
  have hmanifest₃ : ∀ g, m₃.fs.get (st.manifestPath g) = m₁.fs.get (st.manifestPath g) :=
    fun g => (h₂.trans h₃).frame _ (not_beside (by decide))
  apply hsteps.headHas hcdc h₃.real hundone₃.plain
  · intro g x hx
    rw [hmanifest₃, hmanifest₁] at hx
    exact hnamed g x hx
  · exact (treeHas_congr h₃.real h₆.real hout₆ htomb₆ (hundone₃.ignore_no_link hlink₁)).mp htree
  · intro rel d hplay hin
    exact hsteps.listed_of_undo h₁.real h₃.real hundone₃.plain hvm hlisted hplay hin

/-! ## Small undoings -/

/-- Where the worktree has no link and the gate passes, every undo lands. -/
def AlwaysLands (X : Crates) (st : Store) : Prop :=
  ∀ (actor : Bytes) (m m' : Machine) (vm : Manifest) (touched : List Bytes) (id : Hash),
    st.Real m.fs → Revert.Named X st m.fs →
      (∀ rel t, m.fs.get (st.root ++ rel) ≠ some (.symlink t)) →
    Revert.Passes X st false m.fs → Revert.surgicalManifest X st actor m.fs = .ok (vm, touched) →
    revertActor X st actor false m = .ok id m' → Revert.Lands X st vm.files id m'.fs

/-- A fabric whose HEAD is the last snapshot of the history, with these objects
and this worktree. -/
def undoFabric (history : List (Bytes × Manifest)) (objects : List Bytes)
    (tree : List (Path × Node)) : Machine :=
  Machine.start (Fs.build (Store.fabricNodes ⟨[str "w"]⟩ (match history.getLast? with
      | some e => hashHex (padHash e.1)
      | none => []) ++
    history.flatMap (fun e => Store.blobNodes ⟨[str "w"]⟩ (str "manifests") (padHash e.1) e.1) ++
    objects.flatMap (fun b => Store.blobNodes ⟨[str "w"]⟩ (str "objects") (padHash b) b) ++ tree))

/-- Somebody's snapshot of files, and one of the bot's. -/
def botHistory (before after : List FileEntry) : List (Bytes × Manifest) :=
  [(str "one", smallManifest none none before),
   (str "two", smallManifest (some (str "one")) (some (str "bot")) after)]

/-- The undo of the bot there. -/
abbrev smallUndo (history : List (Bytes × Manifest)) (m : Machine) :
    EStateM.Result Error Machine Hash :=
  revertActor (smallCrates history [] []) ⟨[str "w"]⟩ (str "bot") false m

/-- The bytes of a manifest are in the table, or there are none. -/
theorem mem_tableEncode {α : Type} [DecidableEq α] (table : List (Bytes × α)) (a : α) :
    tableEncode table a ∈ [] :: table.map Prod.fst := by
  unfold tableEncode
  cases hfind : table.find? fun e => e.2 = a with
  | none => exact List.mem_cons_self
  | some e =>
      exact List.mem_cons_of_mem _ (List.mem_map.mpr ⟨e, List.mem_of_find?_eq_some hfind, rfl⟩)

/-- The manifests of a small fabric are checked key by key. -/
theorem named_of_keys {history : List (Bytes × Manifest)} {fs : Fs}
    (h : ∀ k ∈ fs.nodes.keys, k.take 3 = [str "w", FABRIC_DIR, str "manifests"] → k.length = 5 →
      (fs.get k).any (fun x => match x with
        | .file d => decide (∀ b ∈ [] :: history.map Prod.fst,
            k = Store.manifestPath ⟨[str "w"]⟩ (padHash b) → d.bytes = b)
        | _ => false) = true) :
    Revert.Named (smallCrates history [] []) ⟨[str "w"]⟩ fs := by
  intro g x hx
  have hfile := h _ (fs.mem_keys hx) rfl rfl
  rw [hx] at hfile
  cases x with
  | dir => cases hfile
  | symlink t => cases hfile
  | file d =>
      refine ⟨d, rfl, ?_⟩
      rintro mf rfl
      exact of_decide_eq_true hfile _ (mem_tableEncode history mf) rfl

/-- The bot's work is undone, and the files left are those of this list. -/
def botUndone (files : List FileEntry) : Manifest :=
  { smallManifest (some (str "one")) (some (str "bot")) files with
    message := str "surgical undo of actor 'bot'" }

/-- A file that is tracked afterwards and is not in the undo shows that it missed. -/
theorem not_alwaysLands {history : List (Bytes × Manifest)} (m : Machine)
    (files : List FileEntry) (touched : List Bytes) (rel : Path) (d : FileData)
    (hkeys : ∀ k ∈ m.fs.nodes.keys, Store.isLink (m.fs.get k) = false)
    (hdir : m.fs.get [str "w", FABRIC_DIR] = some .dir)
    (hnamed : Revert.Named (smallCrates history [] []) ⟨[str "w"]⟩ m.fs)
    (hgate : (Revert.gateReport (smallCrates history [] []) ⟨[str "w"]⟩ [str "w"] m.fs
      ).toOption.map Revert.dirty = some false)
    (hplan : (Revert.surgicalManifest (smallCrates history [] []) ⟨[str "w"]⟩ (str "bot") m.fs
      ).toOption = some (botUndone files, touched))
    (hrun : succeeded (smallUndo history m) = true ∧
      (finalState (smallUndo history m)).fs.get ([str "w"] ++ rel) = some (.file d) ∧
      Snapshot.ignored (Snapshot.ignorePatterns [str "w"] (finalState (smallUndo history m)).fs)
        (relStr rel) = false ∧
      (isPurged (smallCrates history [] []) ⟨[str "w"]⟩ (relStr rel) (padHash d.bytes)
        (finalState (smallUndo history m)).fs).toOption = some false)
    (hex : Revert.excluded rel = false) (hnone : Revert.stateOf files (relStr rel) = none) :
    ¬ AlwaysLands (smallCrates history [] []) ⟨[str "w"]⟩ := by
  intro halways
  obtain ⟨hok, hd, hkept, hunpurged⟩ := hrun
  obtain ⟨id, hok⟩ := exists_of_succeeded hok
  have hpasses : Revert.Passes (smallCrates history [] []) ⟨[str "w"]⟩ false m.fs := by
    obtain ⟨report, hreport, hclean⟩ := Option.map_eq_some_iff.mp hgate
    refine ⟨report, eq_ok_of_toOption hreport, ?_⟩
    rw [hclean]
    rfl
  have hlands := halways (str "bot") m _ (botUndone files) touched id
    ⟨hdir, fun q t _ => Store.noLink_of_keys hkeys q t⟩ hnamed
    (fun _ t => Store.noLink_of_keys hkeys _ t) hpasses (eq_ok_of_toOption hplan) hok
  have hstate := (hlands.tree _ _).mp
    ⟨rel, d, ⟨hd, hex, hkept, eq_ok_of_toOption hunpurged⟩, rfl, rfl⟩
  rw [show (botUndone files).files = files from rfl, hnone] at hstate
  cases hstate

/-- The bot wrote a `.fabricignore` that hides the file `x`. -/
def rulesHistory : List (Bytes × Manifest) :=
  botHistory [] [smallEntry (str ".fabricignore") (str "x")]

def rulesTree : Machine :=
  undoFabric rulesHistory [] [([str "w", str ".fabricignore"], Store.plainFile (str "x")),
    ([str "w", str "x"], Store.plainFile (str "X"))]

/-- The bot's snapshot is of a file `a\b`, which it calls `a/b`. -/
def respelledHistory : List (Bytes × Manifest) := botHistory [] [smallEntry (str "a/b") (str "B")]

def respelledTree : Machine :=
  undoFabric respelledHistory [] [([str "w", str "a\\b"], Store.plainFile (str "B"))]

/-- An older snapshot calls a file `a//b`; the bot removed it. -/
def doubledHistory : List (Bytes × Manifest) := botHistory [smallEntry (str "a//b") (str "B")] []

def doubledTree : Machine := undoFabric doubledHistory [str "B"] []

/-- Where the bot did nothing but remove `n`, a directory that cannot be listed. -/
def sealedHistory : List (Bytes × Manifest) := botHistory [smallEntry (str "n") (str "N")] []

def sealedTree : Machine :=
  Machine.start ((undoFabric sealedHistory [str "N"] [([str "w", str "e"], .dir),
    ([str "w", str "e", str "y"], Store.plainFile (str "Y"))]).fs.sealDir [str "w", str "e"])

/-- **Undoing an actor can miss what it computed.**  Without the bot's
`.fabricignore` the snapshot has a file that was hidden; a file in a directory
that cannot be listed is in no snapshot; a file whose name has a backslash is not
found under its path; and a path that is no snapshot's own spelling is listed
under another. -/
theorem revertActor_misses :
    ¬ AlwaysLands (smallCrates rulesHistory [] []) ⟨[str "w"]⟩ ∧
    ¬ AlwaysLands (smallCrates sealedHistory [] []) ⟨[str "w"]⟩ ∧
    ¬ AlwaysLands (smallCrates respelledHistory [] []) ⟨[str "w"]⟩ ∧
    ¬ AlwaysLands (smallCrates doubledHistory [] []) ⟨[str "w"]⟩ := by
  refine ⟨?_, ?_, ?_, ?_⟩
  · exact not_alwaysLands rulesTree [] [str ".fabricignore"] [str "x"] ⟨str "X", defaultMode, 0⟩
      (by decide +kernel) (by decide +kernel) (named_of_keys (by decide +kernel))
      (by decide +kernel) (by decide +kernel) (by decide +kernel) (by decide) rfl
  · exact not_alwaysLands sealedTree [smallEntry (str "n") (str "N")] [str "n"]
      [str "e", str "y"] ⟨str "Y", defaultMode, 0⟩
      (by decide +kernel) (by decide +kernel) (named_of_keys (by decide +kernel))
      (by decide +kernel) (by decide +kernel) (by decide +kernel) (by decide) rfl
  · exact not_alwaysLands respelledTree [] [str "a/b"] [str "a\\b"] ⟨str "B", defaultMode, 0⟩
      (by decide +kernel) (by decide +kernel) (named_of_keys (by decide +kernel))
      (by decide +kernel) (by decide +kernel) (by decide +kernel) (by decide) rfl
  · exact not_alwaysLands doubledTree [smallEntry (str "a//b") (str "B")] [str "a//b"]
      [str "a", str "b"] ⟨str "B", 0o644, 0⟩
      (by decide +kernel) (by decide +kernel) (named_of_keys (by decide +kernel))
      (by decide +kernel) (by decide +kernel) (by decide +kernel) (by decide) rfl

/-- The bot overwrote `a` and made `n`. -/
def editsHistory : List (Bytes × Manifest) :=
  botHistory [smallEntry (str "a") (str "A")]
    [smallEntry (str "a") (str "B"), smallEntry (str "n") (str "N")]

def editsTree : Machine :=
  undoFabric editsHistory [str "A"] [([str "w", str "a"], Store.plainFile (str "B")),
    ([str "w", str "n"], Store.plainFile (str "N"))]

/-- Names without separators are ordinary paths. -/
theorem ordinary_small {p : Bytes} (hp : p ∈ [str "a", str "n"]) : Revert.Ordinary p := by
  have hcomps : ∀ p ∈ [str "a", str "n"],
      ((sanitizeRel p).toOption.map fun rel => Revert.excluded rel.comps) = some false := by
    decide +kernel
  refine ⟨⟨[p], by simp, ?_, by simp [joinSlash]⟩, ?_⟩
  · have hnames : ∀ p ∈ [str "a", str "n"],
        p ≠ [] ∧ p ≠ dot ∧ slash ∉ p ∧ validUtf8 p = true := by decide
    intro n hn
    rw [List.mem_singleton.mp hn]
    exact hnames p hp
  · intro rel hrel
    have hin := hcomps p hp
    rw [hrel] at hin
    exact Option.some.inj hin

/-- Without a `.fabricignore` the undo lands. -/
theorem revertActor_lands_edits : ∃ id,
    smallUndo editsHistory editsTree = .ok id (finalState (smallUndo editsHistory editsTree)) ∧
    Revert.Lands (smallCrates editsHistory [] []) ⟨[str "w"]⟩ [smallEntry (str "a") (str "A")] id
      (finalState (smallUndo editsHistory editsTree)).fs := by
  obtain ⟨id, hok⟩ := exists_of_succeeded (r := smallUndo editsHistory editsTree)
    (by decide +kernel)
  have hpatterns : Snapshot.ignorePatterns [str "w"] editsTree.fs = [] ∧
      Snapshot.ignorePatterns [str "w"]
        (finalState (smallUndo editsHistory editsTree)).fs = [] := by
    decide +kernel
  refine ⟨id, hok, ?_⟩
  have hopen : ∀ rel, editsTree.fs.Listed [str "w"] rel := by
    have hnone : editsTree.fs.sealed = [] := by decide +kernel
    intro rel q hq
    rw [hnone] at hq
    cases hq
  have hplan : Revert.surgicalManifest (smallCrates editsHistory [] []) ⟨[str "w"]⟩ (str "bot")
      editsTree.fs = .ok (botUndone [smallEntry (str "a") (str "A")], [str "a", str "n"]) :=
    eq_ok_of_toOption (by decide +kernel)
  refine (revertActor_lands_iff (smallCrates editsHistory [] []) ⟨[str "w"]⟩
    (Revert.flatten_small _ _ _) (Store.Real.of_keys (by decide +kernel) (by decide +kernel))
    (named_of_keys (by decide +kernel)) (Revert.plainNames_of_keys (by decide +kernel)).leaves
    (fun t => Store.noLink_of_keys (by decide +kernel) _ t)
    hplan ?_ (fun p hp => ordinary_small hp) (fun _ _ _ _ => hopen _) hok).mpr ?_
  · intro fe hfe
    rw [List.mem_singleton.mp hfe]
    exact ordinary_small (by decide)
  · refine ⟨?_, ?_⟩
    · intro fe _
      rw [show Snapshot.ignorePatterns _ _ = [] from hpatterns.2]
      rfl
    · intro rel d _ _ hhidden
      rw [show Snapshot.ignorePatterns _ _ = [] from hpatterns.1] at hhidden
      rcases hhidden with hig | hsealed
      · cases hig
      · exact absurd (hopen rel) hsealed

end Cli

end Respawn
