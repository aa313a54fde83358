import Respawn.Reach
import Respawn.RoundTrip

/-!
# How a snapshot spells the files it captures

A file name is any bytes but `/` and NUL.  A manifest holds strings: what is no
UTF-8 becomes the replacement character, and a backslash becomes a separator.
What is spelled so is read back as another place or as no place at all, and two
files may get one path.

* `comps_eq_iff_plain` — a spelled path is read back exactly if its names are
  UTF-8 without backslash;
* `create_names_iff` — so a snapshot names the files it captured exactly if
  they all have such names.
-/

namespace Respawn

open ByteStr FileTree StateLogic Snapshot

variable (X : Crates) (st : Store)

namespace Revert

/-! ## One path -/

/-- The components of an accepted path are its normal names. -/
theorem comps_eq_normalNames {p : Bytes} {r : RelPath} (h : sanitizeRel p = .ok r) :
    r.comps = normalNames p := by
  unfold sanitizeRel at h
  split at h
  · cases h
  · split at h
    · cases h
    · split at h
      · cases h
        rfl
      · cases h

/-- **Only plain names are read back.** -/
theorem comps_eq_iff_plain {rel : Path} {r : RelPath} (hne : rel ≠ [])
    (hvalid : ∀ n ∈ rel, ValidName n) (hr : sanitizeRel (relStr rel) = .ok r) :
    r.comps = rel ↔ ∀ n ∈ rel, validUtf8 n = true ∧ backslash ∉ n := by
  constructor
  · intro hcomps
    obtain ⟨⟨-, hback⟩, -⟩ := plain_of_sanitizeRel hr
    have hpiece : ∀ n ∈ rel, n ∈ (relStr rel).splitOn slash := by
      intro n hn
      rw [← hcomps, comps_eq_normalNames hr] at hn
      exact (piece_of_mem_normalNames hn).1
    have hplain : ∀ n ∈ rel, backslash ∉ n := fun n hn hmem =>
      hback (mem_splitOn (hpiece n hn) hmem).2
    -- nothing was replaced, so what was read is the lossy text
    have hjoin : backslash ∉ joinSlash rel := by
      intro hmem
      rcases mem_joinSlash hmem with heq | ⟨n, hn, hb⟩
      · exact absurd heq (by decide)
      · exact hplain n hn hb
    have htext : relStr rel = lossy (joinSlash rel) :=
      replaceByte_eq_self fun hmem => hjoin (mem_lossyAux (by decide) hmem)
    have hwell : validUtf8 (joinSlash ((relStr rel).splitOn slash)) = true := by
      rw [joinSlash, List.intercalate_splitOn, htext]
      exact validUtf8_lossy _
    exact fun n hn => ⟨validUtf8_of_joinSlash hwell n (hpiece n hn), hplain n hn⟩
  · intro hplain
    rw [relStr_eq_joinSlash (fun n hn => (hplain n hn).1) fun n hn => (hplain n hn).2] at hr
    exact (sanitizeRel_joinSlash hne hvalid hr).1

/-- A path leads under the root to the place that its components name. -/
theorem under_eq_iff {root rel : Path} {r : RelPath} (hvalid : ∀ n ∈ rel, ValidName n) :
    r.under root = root ++ rel ↔ r.comps = rel ∧ r.dirOnly = false := by
  unfold RelPath.under
  rw [List.append_assoc, List.append_cancel_left_eq]
  cases r.dirOnly with
  | false => simp
  | true =>
      simp only [if_true, Bool.true_eq_false, and_false, iff_false]
      intro heq
      have hdot : dot ∈ rel := by
        rw [← heq]
        simp
      exact (hvalid dot hdot).2.1 rfl

/-! ## A snapshot -/

/-- The file at `rel` was captured as the entry `fe`. -/
def CapturedAs (fs : Fs) (rel : Path) (fe : FileEntry) : Prop :=
  fs.Listed st.root rel ∧ ∃ tombs, tombstones X st fs = .ok tombs ∧
    captured X st.root (ignorePatterns st.root fs) tombs fs rel = some fe

/-- Every entry's path leads to the file that the entry was made of, and no two
files have one path. -/
def NamesFiles (fs fs' : Fs) : Prop :=
  (∀ rel fe, CapturedAs X st fs rel fe →
    ∃ r, resolveDest st.root fe.path fs' = .ok r ∧ r.under st.root = st.root ++ rel) ∧
  ∀ rel rel' fe fe', CapturedAs X st fs rel fe → CapturedAs X st fs rel' fe' →
    fe.path = fe'.path → rel = rel'

variable {X st}

/-- A captured entry carries the spelling of the file it was made from. -/
theorem captured_file {fs : Fs} {rel : Path} {fe : FileEntry} (h : CapturedAs X st fs rel fe) :
    fe.path = relStr rel ∧ excluded rel = false ∧
      ∃ d, fs.get (st.root ++ rel) = some (.file d) := by
  obtain ⟨-, tombs, -, hcaptured⟩ := h
  obtain ⟨d, hd, hscan, -, rfl⟩ := captured_eq_some.mp hcaptured
  simp only [scanned, Bool.and_eq_true, Bool.not_eq_true'] at hscan
  exact ⟨rfl, hscan.1.1, d, hd⟩

/-- The way to a file is clear. -/
theorem clearWay_of_file {fs : Fs} {root rel : Path} {d : FileData}
    (hd : fs.get (root ++ rel) = some (.file d)) : ClearWay fs root rel := by
  rintro pre ⟨tail, rfl⟩ hne
  left
  rw [← List.append_assoc] at hd
  exact fs.get_of_append hd fun hnil => hne (by rw [hnil, List.append_nil])

/-- **A snapshot names the files it captured if their names are plain.**  It
lists the captured files; each path leads to the file it was made of, and no
two files share one, exactly if all their names are UTF-8 without backslash. -/
theorem create_names_iff (X : Crates) (st : Store) {message : Bytes} {actor : Option Bytes}
    {id : Hash} {m m' : Machine} (hreal : st.Real m.fs)
    (hcreate : createFromActor X st st.root message actor m = .ok id m') :
    (∃ mf m₁, buildManifest X st st.root message actor m = .ok mf m₁ ∧
      storeManifest X st mf m₁ = .ok id m' ∧
      ∀ fe, fe ∈ mf.files ↔ ∃ rel, CapturedAs X st m.fs rel fe) ∧
    (NamesFiles X st m.fs m'.fs ↔ ∀ rel fe, CapturedAs X st m.fs rel fe →
      ∀ n ∈ rel, validUtf8 n = true ∧ backslash ∉ n) := by
  have htouched := (createFromActor_touching message actor m hreal).ok hcreate
  obtain ⟨mf, m₁, hbuild, hstore⟩ := bind_eq_ok.mp hcreate
  obtain ⟨tombs, htombs, hfiles, hsan, -⟩ := (buildManifest_after hreal).ok hbuild
  have hroot : m.fs.get st.root = some .dir := m.fs.dir_of_prefix hreal.dir (List.prefix_append _ _)
  have hroot' : m'.fs.get st.root = some .dir :=
    m'.fs.dir_of_prefix htouched.real.dir (List.prefix_append _ _)
  have hlisted : ∀ fe, fe ∈ mf.files ↔ ∃ rel, CapturedAs X st m.fs rel fe := by
    intro fe
    rw [hfiles, List.mem_filterMap]
    constructor
    · rintro ⟨rel, hwalk, hcaptured⟩
      exact ⟨rel, (Fs.mem_walk.mp hwalk).2, tombs, htombs, hcaptured⟩
    · rintro ⟨rel, hwalked, tombs', htombs', hcaptured⟩
      cases htombs.symm.trans htombs'
      obtain ⟨d, hd, -⟩ := captured_eq_some.mp hcaptured
      exact ⟨rel, Fs.mem_walk.mpr ⟨⟨_, hd⟩, hwalked⟩, hcaptured⟩
  have hspelled : ∀ rel fe, CapturedAs X st m.fs rel fe → rel ≠ [] ∧ (∀ n ∈ rel, ValidName n) ∧
      ClearWay m'.fs st.root rel ∧ ∃ r, sanitizeRel fe.path = .ok r := by
    intro rel fe hcaptured
    obtain ⟨-, hex, d, hd⟩ := captured_file hcaptured
    have houtside : ¬ st.Within workNames (st.root ++ rel) := by
      intro hin
      have hexcluded := excluded_of_fabric hin.fabric
      rw [show Snapshot.excluded rel = excluded rel from rfl, hex] at hexcluded
      cases hexcluded
    have hd' := (htouched.frame _ houtside).trans hd
    exact ⟨rel_ne_nil hroot hd (by simp), validName_of_rel hd, clearWay_of_file hd',
      hsan fe ((hlisted fe).mpr ⟨rel, hcaptured⟩)⟩
  refine ⟨⟨mf, m₁, hbuild, hstore, hlisted⟩, ?_⟩
  constructor
  · intro hnames rel fe hcaptured
    obtain ⟨hne, hvalid, -, -⟩ := hspelled rel fe hcaptured
    obtain ⟨r, hr, hunder⟩ := hnames.1 rel fe hcaptured
    have hread := ((resolveDest_eq_ok hroot').mp hr).1
    rw [(captured_file hcaptured).1] at hread
    exact (comps_eq_iff_plain hne hvalid hread).mp ((under_eq_iff hvalid).mp hunder).1
  · intro hplain
    have hleads : ∀ rel fe, CapturedAs X st m.fs rel fe → ∃ r,
        resolveDest st.root fe.path m'.fs = .ok r ∧ r.under st.root = st.root ++ rel := by
      intro rel fe hcaptured
      obtain ⟨hne, hvalid, hclear, r, hr⟩ := hspelled rel fe hcaptured
      have hnames := hplain rel fe hcaptured
      have hjoin := hr
      rw [(captured_file hcaptured).1,
        relStr_eq_joinSlash (fun n hn => (hnames n hn).1) fun n hn => (hnames n hn).2] at hjoin
      have hcomps := sanitizeRel_joinSlash hne hvalid hjoin
      exact ⟨r, (resolveDest_eq_ok hroot').mpr ⟨hr, hcomps.1 ▸ hclear⟩,
        (under_eq_iff hvalid).mpr hcomps⟩
    refine ⟨hleads, ?_⟩
    intro rel rel' fe fe' hcaptured hcaptured' hsame
    obtain ⟨r, hr, hunder⟩ := hleads rel fe hcaptured
    obtain ⟨r', hr', hunder'⟩ := hleads rel' fe' hcaptured'
    rw [hsame] at hr
    cases hr.symm.trans hr'
    exact List.append_cancel_left (hunder.symm.trans hunder')

/-- A snapshot of the tree `fs`. -/
def snapped (fs : Fs) : EStateM.Result Error Machine Hash :=
  createFromActor (smallCrates [] [] []) ⟨[str "w"]⟩ [str "w"] (str "m") none (Machine.start fs)

/-- A tree with directories in directories, names with blanks and letters of two
bytes, and a repository. -/
def nestedNames : Fs :=
  Fs.build (Store.fabricNodes ⟨[str "w"]⟩ [] ++
    [([str "w", str "a b"], Store.plainFile (str "A")), ([str "w", str "d"], .dir),
     ([str "w", str "d", str "é"], Store.plainFile (str "B")),
     ([str "w", str "d", str "e"], .dir),
     ([str "w", str "d", str "e", str "a b"], Store.plainFile (str "A")),
     ([str "w", str ".git"], .dir), ([str "w", str ".git", str "HEAD"], Store.plainFile (str "H"))])

/-- The paths that the manifest of a snapshot of `fs` lists. -/
def namesOf (fs : Fs) : Option (List Bytes) :=
  match buildManifest (smallCrates [] [] []) ⟨[str "w"]⟩ [str "w"] (str "m") none
      (Machine.start fs) with
  | .ok mf _ => some (mf.files.map FileEntry.path)
  | .error _ _ => none

/-- Three files are captured, each under a path that leads to it. -/
theorem create_names_nested :
    (∃ id, snapped nestedNames = .ok id (finalState (snapped nestedNames))) ∧
      namesOf nestedNames =
        some [str "a b", str "d/e/a b", str "d/é"] ∧
      NamesFiles (smallCrates [] [] []) ⟨[str "w"]⟩ nestedNames
        (finalState (snapped nestedNames)).fs := by
  obtain ⟨id, hcreate⟩ := exists_of_succeeded (r := snapped nestedNames) (by decide +kernel)
  have hreal : Store.Real ⟨[str "w"]⟩ nestedNames :=
    Store.Real.of_keys (by decide +kernel) (by decide +kernel)
  refine ⟨⟨id, hcreate⟩, by decide +kernel, (create_names_iff (smallCrates [] [] []) ⟨[str "w"]⟩
    hreal hcreate).2.mpr ?_⟩
  intro rel fe hcaptured
  obtain ⟨-, -, d, hd⟩ := captured_file hcaptured
  exact plainNames_of_keys (by decide +kernel) rel _ hd

/-- A file with a backslash in its name, and a directory with a file. -/
def backslashTree : Fs :=
  Fs.build (Store.fabricNodes ⟨[str "w"]⟩ [] ++
    [([str "w", [97, backslash, 98]], Store.plainFile (str "A")),
     ([str "w", str "a"], .dir), ([str "w", str "a", str "b"], Store.plainFile (str "B"))])

/-- **A backslash is read as a separator.**  Both files are captured under the
path `a/b`, which leads to the second one. -/
theorem backslash_read_as_separator :
    (∃ id, snapped backslashTree = .ok id (finalState (snapped backslashTree))) ∧
    ¬ NamesFiles (smallCrates [] [] []) ⟨[str "w"]⟩ backslashTree
      (finalState (snapped backslashTree)).fs := by
  refine ⟨exists_of_succeeded (by decide +kernel), ?_⟩
  rintro ⟨-, hdistinct⟩
  have htombs : tombstones (smallCrates [] [] []) ⟨[str "w"]⟩ backslashTree = .ok [] :=
    eq_ok_of_toOption (by decide +kernel)
  have hfirst : CapturedAs (smallCrates [] [] []) ⟨[str "w"]⟩ backslashTree
      [[97, backslash, 98]] (smallEntry (str "a/b") (str "A")) :=
    ⟨by decide +kernel, [], htombs, by decide +kernel⟩
  have hsecond : CapturedAs (smallCrates [] [] []) ⟨[str "w"]⟩ backslashTree
      [str "a", str "b"] (smallEntry (str "a/b") (str "B")) :=
    ⟨by decide +kernel, [], htombs, by decide +kernel⟩
  exact absurd (hdistinct _ _ _ _ hfirst hsecond rfl) (by decide)

end Revert

end Respawn
