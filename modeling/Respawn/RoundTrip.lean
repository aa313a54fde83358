import Mathlib.Data.List.Dedup
import Respawn.Apply
import Respawn.Capture

/-!
# Snapshot, then revert

A manifest that `create` made of a tree, applied to any later tree, gives back
the files that were captured, byte for byte, and no other file or link outside
the excluded paths and the directories that cannot be listed (`apply_restores`).
What two trees must have in common is nothing: `apply` checks every byte it
writes against the manifest.

Names matter, since a manifest spells a path with `/` and replaces bytes that
are no UTF-8: on plain names the spelling is read back as the path it came from.
-/

namespace Respawn

open ByteStr FileTree StateLogic Snapshot

variable (X : Crates) (st : Store)

namespace Revert

/-- All names under the root are valid UTF-8 without backslash. -/
def PlainNames (root : Path) (fs : Fs) : Prop :=
  ∀ rel x, fs.get (root ++ rel) = some x → ∀ n ∈ rel, validUtf8 n = true ∧ backslash ∉ n

/-- The names of all files and links outside the excluded paths are. -/
def PlainLeaves (root : Path) (fs : Fs) : Prop :=
  ∀ rel x, excluded rel = false → fs.leaf (root ++ rel) = some x →
    ∀ n ∈ rel, validUtf8 n = true ∧ backslash ∉ n

theorem PlainNames.leaves {root : Path} {fs : Fs} (h : PlainNames root fs) :
    PlainLeaves root fs :=
  fun rel x _ hx => h rel x (fs.leaf_eq_some.mp hx).1

/-- The file `d` at `rel` is neither excluded nor ignored nor purged. -/
structure InPlay (fs : Fs) (rel : Path) (d : FileData) : Prop where
  file : fs.get (st.root ++ rel) = some (.file d)
  included : excluded rel = false
  kept : ignored (ignorePatterns st.root fs) (relStr rel) = false
  unpurged : isPurged X st (relStr rel) (X.blake3 d.bytes) fs = .ok false

/-- A snapshot captures it if it gets there: no directory above it is one that
cannot be listed. -/
structure Tracked (fs : Fs) (rel : Path) (d : FileData) : Prop extends
    InPlay X st fs rel d where
  listed : fs.Listed st.root rel

/-- `fs'` holds the tracked files of `fs`, which the manifest lists.  Outside the
excluded paths, and the directories of `fs₂` that cannot be listed, it has no
other file and no link.  The only drift reported is of tracked files that were
put into such a directory, where `detect` does not find them. -/
structure RestoresTree (mf : Manifest) (fs fs₂ fs' : Fs) : Prop where
  files : ∀ rel d, Tracked X st fs rel d →
    ∃ d', fs'.get (st.root ++ rel) = some (.file d') ∧ d'.bytes = d.bytes
  only : ∀ rel d', excluded rel = false → fs₂.Listed st.root rel →
    fs'.get (st.root ++ rel) = some (.file d') → ∃ d, Tracked X st fs rel d ∧ d.bytes = d'.bytes
  listed : ∀ p, p ∈ mf.files.map FileEntry.path ↔ ∃ rel d, Tracked X st fs rel d ∧ relStr rel = p
  links : ∀ rel t, excluded rel = false → fs₂.Listed st.root rel →
    fs'.get (st.root ++ rel) ≠ some (.symlink t)
  drift : ∃ report, Drift.detect X st.root mf true fs' = .ok report ∧
    report.added = [] ∧ report.modified = [] ∧
      ∀ p, p ∈ report.deleted ↔
        ∃ rel d, Tracked X st fs rel d ∧ ¬ fs₂.Listed st.root rel ∧ relStr rel = p

/-- `fs'` has the files of `fs` that are in play, which the manifest lists, and
nothing else outside the excluded paths; no drift is reported. -/
structure RestoresAll (mf : Manifest) (fs fs' : Fs) : Prop where
  files : ∀ rel bytes, excluded rel = false →
    ((∃ d, fs'.get (st.root ++ rel) = some (.file d) ∧ d.bytes = bytes) ↔
      ∃ d, InPlay X st fs rel d ∧ d.bytes = bytes)
  listed : ∀ p, p ∈ mf.files.map FileEntry.path ↔ ∃ rel d, InPlay X st fs rel d ∧ relStr rel = p
  links : ∀ rel t, excluded rel = false → fs'.get (st.root ++ rel) ≠ some (.symlink t)
  drift : ∃ report, Drift.detect X st.root mf true fs' = .ok report ∧
    report.added = [] ∧ report.modified = [] ∧ report.deleted = []

/-- Outside the excluded paths every directory can be listed. -/
def Listable (root : Path) (fs : Fs) : Prop := ∀ rel, excluded rel = false → fs.Listed root rel

variable {X st}

section Names

variable {fs fs' : Fs} {rel rel' : Path} {x x' : Node}

/-- A leaf is not the root. -/
theorem rel_ne_nil (hroot : fs.get st.root = some .dir) (hx : fs.get (st.root ++ rel) = some x)
    (hleaf : x ≠ .dir) : rel ≠ [] := by
  intro hnil
  rw [hnil, List.append_nil, hroot] at hx
  exact hleaf (Option.some.inj hx).symm

theorem validName_of_rel (hx : fs.get (st.root ++ rel) = some x) : ∀ n ∈ rel, ValidName n :=
  fun _ hn => fs.valid_of_get hx (List.mem_append_right _ hn)

theorem relStr_of_plain (hplain : PlainLeaves st.root fs) (hex : excluded rel = false)
    (hx : fs.get (st.root ++ rel) = some x) (hleaf : x ≠ .dir) : relStr rel = joinSlash rel := by
  have hnames := hplain rel x hex (fs.leaf_eq_some.mpr ⟨hx, hleaf⟩)
  exact relStr_eq_joinSlash (fun n hn => (hnames n hn).1) fun n hn => (hnames n hn).2

/-- Different files have different paths in manifests. -/
theorem relStr_injective (hroot : fs.get st.root = some .dir) (hroot' : fs'.get st.root = some .dir)
    (hplain : PlainLeaves st.root fs) (hplain' : PlainLeaves st.root fs')
    (hex : excluded rel = false) (hex' : excluded rel' = false)
    (hx : fs.get (st.root ++ rel) = some x) (hx' : fs'.get (st.root ++ rel') = some x')
    (hleaf : x ≠ .dir) (hleaf' : x' ≠ .dir) (h : relStr rel = relStr rel') : rel = rel' := by
  rw [relStr_of_plain hplain hex hx hleaf, relStr_of_plain hplain' hex' hx' hleaf'] at h
  exact joinSlash_injective (rel_ne_nil hroot hx hleaf) (rel_ne_nil hroot' hx' hleaf')
    (validName_of_rel hx) (validName_of_rel hx') h

end Names

/-- A chunker cuts without losing anything. -/
theorem flatten_chunksOf
    (hcdc : ∀ data, (X.fastcdc CDC_MIN CDC_AVG CDC_MAX data).flatten = data) (data : Bytes) :
    (chunksOf X data).flatten = data := hcdc data

/-- Of what a walk gets to, a snapshot captures the tracked files. -/
theorem captured_iff_tracked
    (hcdc : ∀ data, (X.fastcdc CDC_MIN CDC_AVG CDC_MAX data).flatten = data)
    {fs : Fs} {tombs : List Tombstone} (htombs : tombstones X st fs = .ok tombs)
    {rel : Path} (hlisted : fs.Listed st.root rel) {fe : FileEntry} :
    captured X st.root (ignorePatterns st.root fs) tombs fs rel = some fe ↔
      ∃ d, Tracked X st fs rel d ∧ fe = fileEntry X rel d := by
  have hcontent : ∀ d, (fileEntry X rel d).content = X.blake3 d.bytes := by
    intro d
    simp only [fileEntry, flatten_chunksOf hcdc]
  have hpurged : ∀ d : FileData, isPurged X st (relStr rel) (X.blake3 d.bytes) fs = .ok false ↔
      (∀ t ∈ tombs, t.path ≠ relStr rel) ∧
        ∀ t ∈ tombs, t.content ≠ hashHex (X.blake3 d.bytes) := by
    intro d
    unfold isPurged
    rw [htombs]
    simp only [Except.ok.injEq, List.any_eq_false, decide_eq_true_eq, not_or]
    exact ⟨fun h => ⟨fun t ht => (h t ht).1, fun t ht => (h t ht).2⟩,
      fun h t ht => ⟨h.1 t ht, h.2 t ht⟩⟩
  have hscan : scanned (ignorePatterns st.root fs) tombs rel = true ↔
      excluded rel = false ∧ ignored (ignorePatterns st.root fs) (relStr rel) = false ∧
        ∀ t ∈ tombs, t.path ≠ relStr rel := by
    simp [scanned, Snapshot.excluded, excluded, and_assoc]
  rw [captured_eq_some]
  constructor
  · intro h
    obtain ⟨d, hd, hs, hcont, rfl⟩ := h
    obtain ⟨hex, hig, hpath⟩ := hscan.mp hs
    rw [hcontent] at hcont
    exact ⟨d, ⟨⟨hd, hex, hig, (hpurged d).mpr ⟨hpath, hcont⟩⟩, hlisted⟩, rfl⟩
  · intro h
    obtain ⟨d, ht, rfl⟩ := h
    obtain ⟨hpath, hcont⟩ := (hpurged d).mp ht.unpurged
    exact ⟨d, ht.file, hscan.mpr ⟨ht.included, ht.kept, hpath⟩, by rw [hcontent]; exact hcont, rfl⟩

/-! ## The manifest and the tree it came from -/

/-- The manifest lists exactly the tracked files of `fs`, each at the place
where it is. -/
structure Lists (X : Crates) (st : Store) (mf : Manifest) (fs : Fs) : Prop where
  mem : ∀ fe, fe ∈ mf.files ↔ ∃ rel d, Tracked X st fs rel d ∧ fe = fileEntry X rel d
  dest : ∀ rel d, Tracked X st fs rel d →
    destination st.root (fileEntry X rel d) = some (st.root ++ rel)

/-- The manifest of a tree of plain names lists its tracked files. -/
theorem lists_of_build
    (hcdc : ∀ data, (X.fastcdc CDC_MIN CDC_AVG CDC_MAX data).flatten = data)
    {message : Bytes} {actor : Option Bytes} {s₀ s₁ : Machine} {mf : Manifest}
    (hreal : st.Real s₀.fs) (hplain : PlainLeaves st.root s₀.fs)
    (hbuild : buildManifest X st st.root message actor s₀ = .ok mf s₁) :
    Lists X st mf s₀.fs := by
  have hafter : After (buildManifest X st st.root message actor s₀) _ _ :=
    buildManifest_after hreal
  rw [hbuild] at hafter
  obtain ⟨tombs, htombs, hfiles, hsan, _⟩ := hafter
  have hroot : s₀.fs.get st.root = some .dir :=
    Fs.dir_of_prefix hreal.dir (List.prefix_append _ _)
  have hmem : ∀ fe, fe ∈ mf.files ↔
      ∃ rel d, Tracked X st s₀.fs rel d ∧ fe = fileEntry X rel d := by
    intro fe
    rw [hfiles, List.mem_filterMap]
    constructor
    · intro h
      obtain ⟨rel, hwalk, hcap⟩ := h
      exact ⟨rel, (captured_iff_tracked hcdc htombs (Fs.mem_walk.mp hwalk).2).mp hcap⟩
    · intro h
      obtain ⟨rel, d, ht, hfe⟩ := h
      exact ⟨rel, Fs.mem_walk.mpr ⟨⟨_, ht.file⟩, ht.listed⟩,
        (captured_iff_tracked hcdc htombs ht.listed).mpr ⟨d, ht, hfe⟩⟩
  refine ⟨hmem, ?_⟩
  intro rel d ht
  obtain ⟨r, hr⟩ := hsan _ ((hmem _).mpr ⟨rel, d, ht, rfl⟩)
  have hpath : (fileEntry X rel d).path = joinSlash rel :=
    relStr_of_plain hplain ht.included ht.file
    (by simp)
  have hcomps := (sanitizeRel_joinSlash (rel_ne_nil hroot ht.file (by simp))
    (validName_of_rel ht.file) (hpath ▸ hr)).1
  simp only [destination, hr, hcomps]

/-- The last entry for the place of a tracked file is its entry; elsewhere
there is none. -/
theorem Lists.lastAt_eq {mf : Manifest} {fs : Fs} (h : Lists X st mf fs) (rel : Path) :
    (∀ d, Tracked X st fs rel d →
      lastAt st.root mf.files (st.root ++ rel) = some (fileEntry X rel d)) ∧
    ((∀ d, ¬ Tracked X st fs rel d) → lastAt st.root mf.files (st.root ++ rel) = none) := by
  have hat : ∀ fe, lastAt st.root mf.files (st.root ++ rel) = some fe →
      ∃ d, Tracked X st fs rel d ∧ fe = fileEntry X rel d := by
    intro fe hfe
    obtain ⟨hmem, hdest⟩ := mem_of_lastAt hfe
    obtain ⟨rel', d, ht, rfl⟩ := (h.mem fe).mp hmem
    rw [h.dest rel' d ht] at hdest
    have hrel : rel' = rel := List.append_cancel_left (Option.some.inj hdest)
    subst hrel
    exact ⟨d, ht, rfl⟩
  constructor
  · intro d ht
    cases hlast : lastAt st.root mf.files (st.root ++ rel) with
    | none =>
        exact absurd (h.dest rel d ht)
          (lastAt_eq_none.mp hlast _ ((h.mem _).mpr ⟨rel, d, ht, rfl⟩))
    | some fe =>
        obtain ⟨d', ht', rfl⟩ := hat fe hlast
        have hd : d' = d := by
          have := ht'.file.symm.trans ht.file
          simpa using this
        rw [hd]
  · intro hnone
    cases hlast : lastAt st.root mf.files (st.root ++ rel) with
    | none => rfl
    | some fe =>
        obtain ⟨d', ht', _⟩ := hat fe hlast
        exact absurd ht' (hnone d')

/-- A tracked file has its entry at its path. -/
theorem Lists.entryAt_eq {mf : Manifest} {fs : Fs} (h : Lists X st mf fs)
    (hroot : fs.get st.root = some .dir) (hplain : PlainLeaves st.root fs) {rel : Path}
    {d : FileData} (ht : Tracked X st fs rel d) :
    entryAt mf.files (relStr rel) = some (fileEntry X rel d) := by
  apply entryAt_eq_some ((h.mem _).mpr ⟨rel, d, ht, rfl⟩) rfl
  intro fe hfe hpath
  obtain ⟨rel', d', ht', rfl⟩ := (h.mem fe).mp hfe
  have hrel : rel' = rel := relStr_injective hroot hroot hplain hplain ht'.included
    ht.included ht'.file ht.file (by simp) (by simp) hpath
  subst hrel
  have hd : d' = d := by
    have heq := ht'.file.symm.trans ht.file
    simpa using heq
  rw [hd]

/-! ## The result of the revert -/

/-- What the files and links outside the excluded paths are after a revert of the
tree `fs₂`: a tracked file has its content, and elsewhere there is nothing, except
in a directory that cannot be listed.  Walks get as far as before. -/
structure Matches (X : Crates) (st : Store) (fs fs₂ fs' : Fs) : Prop where
  root : fs'.get st.root = some .dir
  tracked : ∀ rel d, Tracked X st fs rel d →
    ∃ d', fs'.get (st.root ++ rel) = some (.file d') ∧ d'.bytes = d.bytes
  other : ∀ rel, excluded rel = false → (∀ d, ¬ Tracked X st fs rel d) →
    fs₂.Listed st.root rel → fs'.leaf (st.root ++ rel) = none
  seen : ∀ rel x, fs'.get (st.root ++ rel) = some x →
    (fs'.Listed st.root rel ↔ fs₂.Listed st.root rel)

/-- **A revert to the snapshot of `fs`** brings its tracked files back, and
leaves nothing else where walks get to. -/
theorem matches_of_apply
    (hcdc : ∀ data, (X.fastcdc CDC_MIN CDC_AVG CDC_MAX data).flatten = data)
    {mf : Manifest} {fs : Fs} {s₂ s₃ : Machine} {r : RevertReport}
    (hlists : Lists X st mf fs) (hroot : fs.get st.root = some .dir)
    (hroot₂ : s₂.fs.get st.root = some .dir) (hplain : PlainLeaves st.root fs)
    (hplain₂ : PlainLeaves st.root s₂.fs)
    (hhash : ∀ rel d d', Tracked X st fs rel d → s₃.fs.get (st.root ++ rel) = some (.file d') →
      X.blake3 d.bytes = X.blake3 d'.bytes → d.bytes = d'.bytes)
    (happly : apply X st st.root mf false s₂ = .ok r s₃) : Matches X st fs s₂.fs s₃.fs := by
  obtain ⟨_, hroot₃, _, fs₂, hrestored, hsealed, hgone, hkept, hseen⟩ := apply_ok hroot₂ happly
  have hlisted := Fs.listed_congr hsealed st.root
  refine ⟨hroot₃, ?_, ?_, hseen⟩
  · intro rel d ht
    have hat := hrestored (st.root ++ rel)
    rw [(hlists.lastAt_eq rel).1 d ht] at hat
    obtain ⟨d₂, hd₂, hcontent⟩ := hat
    -- a listed file is not extra
    have hnot : ¬ Extra st.root mf false fs₂ (st.root ++ rel) := by
      intro hextra
      obtain ⟨_, rel', heq, hrem, _⟩ := hextra
      have hrel : rel = rel' := List.append_cancel_left heq
      subst hrel
      have hpath : relStr rel ∈ mf.files.map FileEntry.path :=
        List.mem_map.mpr ⟨_, (hlists.mem _).mpr ⟨rel, d, ht, rfl⟩, rfl⟩
      unfold removable at hrem
      split at hrem
      · simp [hpath] at hrem
      · simp [hpath] at hrem
      · cases hrem
    have hleaf : s₃.fs.leaf (st.root ++ rel) = some (.file d₂) := (hkept _ hnot).trans hd₂
    have hd₃ := (s₃.fs.leaf_eq_some.mp hleaf).1
    refine ⟨d₂, hd₃, ?_⟩
    have hsame : X.blake3 d.bytes = X.blake3 d₂.bytes := by
      rw [hcontent]
      simp only [fileEntry, flatten_chunksOf hcdc]
    exact (hhash rel d d₂ ht hd₃ hsame).symm
  · intro rel hex hnone hl
    have hat := hrestored (st.root ++ rel)
    rw [(hlists.lastAt_eq rel).2 hnone] at hat
    have hat' : fs₂.leaf (st.root ++ rel) = s₂.fs.leaf (st.root ++ rel) := hat
    by_cases hextra : Extra st.root mf false fs₂ (st.root ++ rel)
    · exact hgone _ hextra
    · rw [hkept _ hextra, hat']
      by_contra hsome
      obtain ⟨x, hx⟩ := Option.ne_none_iff_exists'.mp hsome
      obtain ⟨hget, hxdir⟩ := s₂.fs.leaf_eq_some.mp hx
      -- what stands there is on no list, so it is extra after all
      have hpath : relStr rel ∉ mf.files.map FileEntry.path := by
        intro hmem
        obtain ⟨fe, hfe, heq⟩ := List.mem_map.mp hmem
        obtain ⟨rel', d', ht', rfl⟩ := (hlists.mem fe).mp hfe
        have hrel : rel' = rel := relStr_injective hroot hroot₂ hplain hplain₂ ht'.included
          hex ht'.file hget (by simp) hxdir heq
        subst hrel
        exact hnone d' ht'
      have hget₂ := (fs₂.leaf_eq_some.mp (hat'.trans hx)).1
      apply hextra
      refine ⟨rfl, rel, rfl, ?_, (hlisted rel).mpr hl⟩
      rw [hget₂]
      cases x with
      | dir => exact absurd rfl hxdir
      | file d => simp [removable, hex, hpath]
      | symlink t => simp [removable, hex, hpath]

/-- No tracked file is ignored in the result: its `.fabricignore` is the one of
the tree, or it has none. -/
theorem Matches.not_ignored {fs fs₂ fs' : Fs} (h : Matches X st fs fs₂ fs')
    (hroot : fs.get st.root = some .dir) {rel : Path} {d : FileData}
    (hlisted : fs₂.Listed st.root rel) (ht : Tracked X st fs rel d) :
    ignored (ignorePatterns st.root fs') (relStr rel) = false := by
  by_cases hignore : ∃ d₀, Tracked X st fs [str ".fabricignore"] d₀
  · obtain ⟨d₀, ht₀⟩ := hignore
    obtain ⟨d₁, hd₁, hbytes⟩ := h.tracked _ d₀ ht₀
    have hsame : ignorePatterns st.root fs' = ignorePatterns st.root fs := by
      unfold ignorePatterns Fs.readToString
      rw [Fs.read_of_get hd₁, Fs.read_of_get ht₀.file, hbytes]
    rw [hsame]
    exact ht.kept
  · have hleaf := h.other [str ".fabricignore"] (by decide)
      (fun d₀ ht₀ => hignore ⟨d₀, ht₀⟩) (hlisted.child (rel_ne_nil hroot ht.file (by simp)))
    have hnames : ∀ n ∈ st.root ++ [str ".fabricignore"], ValidName n := by
      intro n hn
      rcases List.mem_append.mp hn with hn | hn
      · exact fs.valid_of_get hroot hn
      · rw [List.mem_singleton.mp hn]
        decide
    have hnolink : ∀ t, fs'.get (st.root ++ [str ".fabricignore"]) ≠ some (.symlink t) := by
      intro t hl
      rw [fs'.leaf_eq_some.mpr ⟨hl, by simp⟩] at hleaf
      cases hleaf
    have hres : fs'.resolve true (st.root ++ [str ".fabricignore"]) = .ok _ :=
      Fs.resolve_of_parent hnames (by simp) (by rw [List.dropLast_concat]; exact h.root)
        fun _ => hnolink
    have hempty : ignorePatterns st.root fs' = [] := by
      unfold ignorePatterns Fs.readToString Fs.read Fs.metadata
      rw [hres]
      rcases fs'.leaf_eq_none.mp hleaf with hx | hx <;> simp only [hx]
    rw [hempty]
    rfl

/-- What `detect` finds of a file of the result. -/
def resultFinding (root : Path) (fs : Fs) (rel : Path) : Option (Bytes × Drift.Finding) :=
  match fs.get (root ++ rel) with
  | some (.file _) => if excluded rel then none else some (relStr rel, .touched)
  | _ => none

/-- A drift check finds each tracked file of the result unchanged. -/
theorem Matches.inspect_eq
    (hcdc : ∀ data, (X.fastcdc CDC_MIN CDC_AVG CDC_MAX data).flatten = data)
    {mf : Manifest} {fs fs₂ fs' : Fs} (h : Matches X st fs fs₂ fs') (hlists : Lists X st mf fs)
    (hroot : fs.get st.root = some .dir) (hplain : PlainLeaves st.root fs) {rel : Path}
    (hwalk : rel ∈ fs'.walk st.root) :
    Drift.inspect X st.root mf (ignorePatterns st.root fs') true fs' rel =
      .ok (resultFinding st.root fs' rel) := by
  unfold Drift.inspect resultFinding
  cases hx : fs'.get (st.root ++ rel) with
  | none => rfl
  | some x => cases x with
    | dir => rfl
    | symlink t => rfl
    | file d =>
        simp only
        by_cases hex : excluded rel = true
        · rw [if_pos hex, if_pos (show Drift.excluded rel = true from hex)]
        · rw [if_neg hex, if_neg (show ¬ Drift.excluded rel = true from hex)]
          have hlisted : fs₂.Listed st.root rel := (h.seen rel _ hx).mp (Fs.mem_walk.mp hwalk).2
          obtain ⟨d₀, ht⟩ : ∃ d₀, Tracked X st fs rel d₀ := by
            by_contra hnone
            have hleaf := h.other rel (by simpa using hex) (fun d₀ ht => hnone ⟨d₀, ht⟩) hlisted
            rw [fs'.leaf_eq_some.mpr ⟨hx, by simp⟩] at hleaf
            cases hleaf
          obtain ⟨d', hd', hbytes⟩ := h.tracked rel d₀ ht
          have hd : d = d' := by
            have heq := hx.symm.trans hd'
            simpa using heq
          have hentry := hlists.entryAt_eq hroot hplain ht
          have hcompare : Drift.compare X st.root mf true rel d fs' = .ok .touched := by
            unfold Drift.compare
            rw [hentry, Fs.read_of_get hx, hd, hbytes]
            simp [fileEntry, flatten_chunksOf hcdc]
          rw [if_neg (by rw [h.not_ignored hroot hlisted ht]; simp), hcompare]

/-- What is found in the result is unchanged. -/
theorem touched_of_resultFinding {root rel : Path} {fs' : Fs} {f : Bytes × Drift.Finding}
    (h : resultFinding root fs' rel = some f) : f.2 = .touched := by
  unfold resultFinding at h
  split at h
  · split at h
    · cases h
    · cases h
      rfl
  · cases h

/-- Nothing in the result is found to be new or changed. -/
theorem pathsWith_resultFinding {root : Path} {fs' : Fs} {l : List Path}
    {finding : Drift.Finding} (hne : finding ≠ .touched) :
    Drift.pathsWith finding (l.filterMap (resultFinding root fs')) = [] := by
  unfold Drift.pathsWith
  rw [List.filter_eq_nil_iff.mpr]
  · rfl
  · intro f hf
    obtain ⟨rel, _, hfind⟩ := List.mem_filterMap.mp hf
    rw [touched_of_resultFinding hfind]
    simpa using Ne.symm hne

/-- A tracked file is found exactly where walks get to it. -/
theorem Matches.found_iff {fs fs₂ fs' : Fs} (h : Matches X st fs fs₂ fs')
    (hroot : fs.get st.root = some .dir) (hplain : PlainLeaves st.root fs) {rel : Path}
    {d : FileData} (ht : Tracked X st fs rel d) :
    relStr rel ∈ ((fs'.walk st.root).filterMap (resultFinding st.root fs')).map Prod.fst ↔
      fs₂.Listed st.root rel := by
  obtain ⟨d', hd', _⟩ := h.tracked rel d ht
  rw [← h.seen rel _ hd', List.mem_map]
  constructor
  · intro hmem
    obtain ⟨f, hf, hpath⟩ := hmem
    obtain ⟨rel', hwalk, hfind⟩ := List.mem_filterMap.mp hf
    obtain ⟨⟨x, hx⟩, hlisted⟩ := Fs.mem_walk.mp hwalk
    have hrel : rel' = rel := by
      unfold resultFinding at hfind
      split at hfind
      case _ d₁ hd₁ =>
        by_cases hex : excluded rel' = true
        · rw [if_pos hex] at hfind
          cases hfind
        · rw [if_neg hex] at hfind
          cases hfind
          have hl := (h.seen rel' _ hd₁).mp hlisted
          obtain ⟨d₀, ht₀⟩ : ∃ d₀, Tracked X st fs rel' d₀ := by
            by_contra hnone
            have hleaf := h.other rel' (by simpa using hex) (fun d₀ h₀ => hnone ⟨d₀, h₀⟩) hl
            rw [fs'.leaf_eq_some.mpr ⟨hd₁, by simp⟩] at hleaf
            cases hleaf
          exact relStr_injective hroot hroot hplain hplain ht₀.included ht.included ht₀.file
            ht.file (by simp) (by simp) hpath
      · cases hfind
    exact hrel ▸ hlisted
  · intro hlisted
    refine ⟨(relStr rel, .touched), List.mem_filterMap.mpr
      ⟨rel, Fs.mem_walk.mpr ⟨⟨_, hd'⟩, hlisted⟩, ?_⟩, rfl⟩
    simp [resultFinding, hd', ht.included]

/-- A full drift check of the result finds nothing new and nothing changed; it
misses the tracked files in directories that cannot be listed. -/
theorem Matches.detect_eq
    (hcdc : ∀ data, (X.fastcdc CDC_MIN CDC_AVG CDC_MAX data).flatten = data)
    {mf : Manifest} {fs fs₂ fs' : Fs} (h : Matches X st fs fs₂ fs') (hlists : Lists X st mf fs)
    (hroot : fs.get st.root = some .dir) (hplain : PlainLeaves st.root fs) :
    ∃ report, Drift.detect X st.root mf true fs' = .ok report ∧
      report.added = [] ∧ report.modified = [] ∧
        ∀ p, p ∈ report.deleted ↔
          ∃ rel d, Tracked X st fs rel d ∧ ¬ fs₂.Listed st.root rel ∧ relStr rel = p := by
  have hscan := scan_eq_ok (l := fs'.walk st.root) fun rel hrel =>
    h.inspect_eq hcdc hlists hroot hplain hrel
  unfold Drift.detect
  rw [hscan]
  refine ⟨_, rfl, pathsWith_resultFinding (by simp), pathsWith_resultFinding (by simp), ?_⟩
  intro p
  simp only
  rw [List.mem_insertionSort, List.mem_filter, List.mem_dedup, List.mem_map]
  constructor
  · intro hp
    obtain ⟨⟨fe, hfe, rfl⟩, hmissing⟩ := hp
    obtain ⟨rel, d, ht, rfl⟩ := (hlists.mem fe).mp hfe
    refine ⟨rel, d, ht, ?_, rfl⟩
    intro hlisted
    have hin := (h.found_iff hroot hplain ht).mpr hlisted
    simp [fileEntry, hin] at hmissing
  · intro hp
    obtain ⟨rel, d, ht, hhidden, rfl⟩ := hp
    refine ⟨⟨_, (hlists.mem _).mpr ⟨rel, d, ht, rfl⟩, rfl⟩, ?_⟩
    have hout := fun hin => hhidden ((h.found_iff hroot hplain ht).mp hin)
    simpa [fileEntry] using hout

/-- **Snapshot, then revert.**  For every tree and every later tree with plain
names: the manifest `create` makes of the first, applied to the second, gives
back the tracked files of the first, with their bytes.  Where walks of the second
get to, there is no other file and no link, and no drift from the manifest. -/
theorem apply_restores (X : Crates) (st : Store)
    (hcdc : ∀ data, (X.fastcdc CDC_MIN CDC_AVG CDC_MAX data).flatten = data)
    {message : Bytes} {actor : Option Bytes} {s₀ s₁ s₂ s₃ : Machine} {mf : Manifest}
    {r : RevertReport}
    (hreal : st.Real s₀.fs) (hroot₂ : s₂.fs.get st.root = some .dir)
    (hplain : PlainNames st.root s₀.fs) (hplain₂ : PlainNames st.root s₂.fs)
    (hhash : ∀ a ∈ s₀.fs.contents, ∀ b ∈ s₃.fs.contents, X.blake3 a = X.blake3 b → a = b)
    (hbuild : buildManifest X st st.root message actor s₀ = .ok mf s₁)
    (happly : apply X st st.root mf false s₂ = .ok r s₃) :
    RestoresTree X st mf s₀.fs s₂.fs s₃.fs := by
  have hroot : s₀.fs.get st.root = some .dir :=
    Fs.dir_of_prefix hreal.dir (List.prefix_append _ _)
  have hlists := lists_of_build hcdc hreal hplain.leaves hbuild
  have hmatch := matches_of_apply hcdc hlists hroot hroot₂ hplain.leaves hplain₂.leaves
    (fun rel d d' ht hd' h =>
      hhash _ (s₀.fs.mem_contents ht.file) _ (s₃.fs.mem_contents hd') h) happly
  have hother : ∀ rel x, excluded rel = false → s₂.fs.Listed st.root rel →
      s₃.fs.leaf (st.root ++ rel) = some x → ∃ d, Tracked X st s₀.fs rel d := by
    intro rel x hex hlisted hx
    by_contra hnone
    rw [hmatch.other rel hex (fun d ht => hnone ⟨d, ht⟩) hlisted] at hx
    cases hx
  refine ⟨hmatch.tracked, ?_, ?_, ?_, hmatch.detect_eq hcdc hlists hroot hplain.leaves⟩
  · intro rel d hex hlisted hd
    obtain ⟨d₀, ht⟩ := hother rel _ hex hlisted (s₃.fs.leaf_eq_some.mpr ⟨hd, by simp⟩)
    obtain ⟨d', hd', hsame⟩ := hmatch.tracked rel d₀ ht
    rw [hd'] at hd
    cases hd
    exact ⟨d₀, ht, hsame.symm⟩
  · intro p
    rw [List.mem_map]
    constructor
    · intro h
      obtain ⟨fe, hfe, hp⟩ := h
      obtain ⟨rel, d, ht, rfl⟩ := (hlists.mem fe).mp hfe
      exact ⟨rel, d, ht, hp⟩
    · intro h
      obtain ⟨rel, d, ht, hp⟩ := h
      exact ⟨_, (hlists.mem _).mpr ⟨rel, d, ht, rfl⟩, hp⟩
  · intro rel t hex hlisted hlink
    obtain ⟨d₀, ht⟩ := hother rel _ hex hlisted (s₃.fs.leaf_eq_some.mpr ⟨hlink, by simp⟩)
    obtain ⟨d', hd', _⟩ := hmatch.tracked rel d₀ ht
    rw [hd'] at hlink
    cases hlink

/-- Where every directory can be listed, that is all of it. -/
theorem RestoresTree.all {mf : Manifest} {fs fs₂ fs' : Fs}
    (h : RestoresTree X st mf fs fs₂ fs') (hlistable : Listable st.root fs)
    (hlistable₂ : Listable st.root fs₂) : RestoresAll X st mf fs fs' := by
  have htracked : ∀ {rel d}, InPlay X st fs rel d → Tracked X st fs rel d :=
    fun hp => ⟨hp, hlistable _ hp.included⟩
  refine ⟨?_, ?_, fun rel t hex => h.links rel t hex (hlistable₂ rel hex), ?_⟩
  · intro rel bytes hex
    constructor
    · intro hheld
      obtain ⟨d', hd', rfl⟩ := hheld
      obtain ⟨d, ht, hbytes⟩ := h.only rel d' hex (hlistable₂ rel hex) hd'
      exact ⟨d, ht.toInPlay, hbytes⟩
    · intro hplay
      obtain ⟨d, hp, rfl⟩ := hplay
      exact h.files rel d (htracked hp)
  · intro p
    rw [h.listed]
    constructor
    · intro hp
      obtain ⟨rel, d, ht, heq⟩ := hp
      exact ⟨rel, d, ht.toInPlay, heq⟩
    · intro hp
      obtain ⟨rel, d, hplay, heq⟩ := hp
      exact ⟨rel, d, htracked hplay, heq⟩
  · obtain ⟨report, hdetect, hadded, hmodified, hdeleted⟩ := h.drift
    refine ⟨report, hdetect, hadded, hmodified, List.eq_nil_iff_forall_not_mem.mpr ?_⟩
    intro p hp
    obtain ⟨rel, d, ht, hhidden, _⟩ := (hdeleted p).mp hp
    exact hhidden (hlistable₂ rel ht.included)

/-- A worktree with a file and a link. -/
def earlierTree : Fs :=
  Fs.build (Store.fabricNodes ⟨[str "w"]⟩ [] ++
    [([str "w", str "a"], Store.plainFile (str "A")), ([str "w", str "l"], .symlink (str "a"))])

/-- The worktree later: the file is overwritten, and there is another one, and
one in a directory that cannot be listed. -/
def laterTree : Fs :=
  (Fs.build (Store.fabricNodes ⟨[str "w"]⟩ [] ++
    Store.blobNodes ⟨[str "w"]⟩ (str "objects") (padHash (str "A")) (str "A") ++
    [([str "w", str "a"], Store.plainFile (str "B")),
      ([str "w", str "x"], Store.plainFile (str "X")),
      ([str "w", str "e"], .dir),
      ([str "w", str "e", str "y"], Store.plainFile (str "Y"))])).sealDir
    [str "w", str "e"]

/-- What `create` makes of the first. -/
def earlierManifest : Manifest :=
  { smallManifest none none [smallEntry (str "a") (str "A")] with message := str "m" }

/-- The tree after the revert. -/
def revertedTree : EStateM.Result Error Machine RevertReport :=
  apply (smallCrates [] [] []) ⟨[str "w"]⟩ [str "w"] earlierManifest false (Machine.start laterTree)

theorem plainNames_of_keys {root : Path} {fs : Fs}
    (h : ∀ k ∈ fs.nodes.keys, ∀ n ∈ k, validUtf8 n = true ∧ backslash ∉ n) :
    PlainNames root fs :=
  fun _ _ hx n hn => h _ (fs.mem_keys hx) n (List.mem_append_right _ hn)

/-- The small chunker loses nothing. -/
theorem flatten_small (manifests : List (Bytes × Manifest)) (entries : List (Bytes × AuditEntry))
    (tombs : List (Bytes × Tombstone)) (data : Bytes) :
    ((smallCrates manifests entries tombs).fastcdc CDC_MIN CDC_AVG CDC_MAX data).flatten =
      data := by
  by_cases hd : data = []
  · simp [smallCrates, hd]
  · simp [smallCrates, hd]

/-- That is what it makes of it. -/
theorem build_earlier : ∃ s₁, buildManifest (smallCrates [] [] []) ⟨[str "w"]⟩ [str "w"]
    (str "m") none (Machine.start earlierTree) = .ok earlierManifest s₁ := by
  have hbuilt : (match buildManifest (smallCrates [] [] []) ⟨[str "w"]⟩ [str "w"] (str "m") none
      (Machine.start earlierTree) with
    | .ok mf _ => decide (mf = earlierManifest)
    | .error _ _ => false) = true := by decide +kernel
  split at hbuilt
  case _ mf s hb => exact ⟨s, by rw [hb, of_decide_eq_true hbuilt]⟩
  · cases hbuilt

theorem plainNames_earlier : PlainNames [str "w"] earlierTree :=
  plainNames_of_keys (by decide +kernel)

theorem plainNames_later : PlainNames [str "w"] laterTree := plainNames_of_keys (by decide +kernel)

/-- A file in a directory that cannot be listed is still there after the revert,
though it was in no snapshot. -/
theorem apply_leaves_hidden : PlainNames [str "w"] earlierTree ∧ PlainNames [str "w"] laterTree ∧
    ∃ s₁ r s₃, buildManifest (smallCrates [] [] []) ⟨[str "w"]⟩ [str "w"] (str "m") none
        (Machine.start earlierTree) = .ok earlierManifest s₁ ∧
      revertedTree = .ok r s₃ ∧
      ¬ RestoresAll (smallCrates [] [] []) ⟨[str "w"]⟩ earlierManifest earlierTree s₃.fs := by
  obtain ⟨s₁, hbuild⟩ := build_earlier
  obtain ⟨r, happly⟩ := exists_of_succeeded (r := revertedTree) (by decide +kernel)
  refine ⟨plainNames_earlier, plainNames_later, s₁, r, _, hbuild, happly, ?_⟩
  intro h
  have hleft : (finalState revertedTree).fs.get ([str "w"] ++ [str "e", str "y"]) =
      some (Store.plainFile (str "Y")) := by decide +kernel
  obtain ⟨d, hplay, _⟩ := (h.files [str "e", str "y"] (str "Y") (by decide)).mp ⟨_, hleft, rfl⟩
  have hnone : earlierTree.get ([str "w"] ++ [str "e", str "y"]) = none := by decide +kernel
  cases hnone.symm.trans hplay.file

/-- A tree with a file changed, one gone and one new is restored. -/
theorem apply_restores_small : ∃ r s₃, revertedTree = .ok r s₃ ∧
    RestoresTree (smallCrates [] [] []) ⟨[str "w"]⟩ earlierManifest earlierTree laterTree
      s₃.fs := by
  obtain ⟨s₁, hbuild⟩ := build_earlier
  obtain ⟨r, happly⟩ := exists_of_succeeded (r := revertedTree) (by decide +kernel)
  have hcontents : ∀ a ∈ earlierTree.contents, ∀ b ∈ (finalState revertedTree).fs.contents,
      padHash a = padHash b → a = b := by decide +kernel
  refine ⟨r, _, happly, ?_⟩
  have hreal : Store.Real ⟨[str "w"]⟩ (Machine.start earlierTree).fs :=
    Store.Real.of_keys (by decide +kernel) (by decide +kernel)
  have hroot : (Machine.start laterTree).fs.get [str "w"] = some .dir := by decide +kernel
  exact apply_restores (smallCrates [] [] []) ⟨[str "w"]⟩ (flatten_small _ _ _) hreal hroot
    plainNames_earlier plainNames_later hcontents hbuild happly

end Revert

end Respawn
