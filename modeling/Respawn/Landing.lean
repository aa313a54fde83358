import Respawn.Crash
import Respawn.Runs
import Respawn.Undo

/-!
# What a revert lands on

* `apply_realises_iff` — every entry of a manifest is there, whoever wrote the
  manifest, if it names each place once and spells it as the walk does;
* `apply_restores_modes_iff` — the permission bits of the manifest come back
  with the bytes, but a file whose bytes were right keeps the bits it had.
-/

namespace Respawn

open ByteStr FileTree StateLogic

variable (X : Crates) (st : Store)

namespace Revert

/-! ## Entries of any manifest -/

/-- The file of each entry is there with the entry's content. -/
def Realised (X : Crates) (root : Path) (files : List FileEntry) (fs : Fs) : Prop :=
  ∀ fe ∈ files, ∃ q d, destination root fe = some q ∧ fs.get q = some (.file d) ∧
    X.blake3 d.bytes = fe.content

/-- Entries for one place have one content, and every place that the walk of `fs`
gets to, outside the excluded directories, is listed under the name that the walk
gives it. -/
def Consistent (root : Path) (fs : Fs) (files : List FileEntry) : Prop :=
  (∀ fe ∈ files, ∀ fe' ∈ files, ∀ rel rel', sanitizeRel fe.path = .ok rel →
    sanitizeRel fe'.path = .ok rel' → rel.comps = rel'.comps → fe.content = fe'.content) ∧
  ∀ fe ∈ files, ∀ rel, sanitizeRel fe.path = .ok rel →
    excluded rel.comps = true ∨ relStr rel.comps ∈ files.map FileEntry.path ∨
      ¬ fs.Listed root rel.comps

theorem destination_of_sanitize {root : Path} {fe : FileEntry} {rel : RelPath}
    (h : sanitizeRel fe.path = .ok rel) : destination root fe = some (root ++ rel.comps) := by
  unfold destination
  rw [h]

/-- A file is left by the removal pass if it is excluded or listed. -/
theorem not_removable_iff {mf : Manifest} {rel : Path} {d : FileData} :
    removable mf rel (some (.file d)) = false ↔
      excluded rel = true ∨ relStr rel ∈ mf.files.map FileEntry.path := by
  simp only [removable, Bool.and_eq_false_iff, Bool.not_eq_false', List.contains_eq_mem,
    decide_eq_true_eq]

/-- Of the files that the removal pass gets to, it leaves those that are not
removable. -/
theorem not_extra_iff {root rel : Path} {mf : Manifest} {fs : Fs} {d : FileData}
    (hd : fs.get (root ++ rel) = some (.file d)) :
    ¬ Extra root mf false fs (root ++ rel) ↔ excluded rel = true ∨
      relStr rel ∈ mf.files.map FileEntry.path ∨ ¬ fs.Listed root rel := by
  rw [← or_assoc, ← not_removable_iff (d := d), ← Bool.not_eq_true, ← not_and_or, ← hd]
  refine not_congr ⟨?_, fun h => ⟨rfl, rel, rfl, h⟩⟩
  rintro ⟨-, rel', heq, hrem⟩
  obtain rfl := List.append_cancel_left heq
  exact hrem

/-- **A manifest is realised entry by entry if it is consistent.**  `apply`
accepts the others too: of two entries for one place the last one wins, and
what is spelled otherwise than the walk does is written and then removed. -/
theorem apply_realises_iff (X : Crates) (st : Store) {m m' : Machine} {mf : Manifest}
    {r : RevertReport} (hroot : m.fs.get st.root = some .dir)
    (h : apply X st st.root mf false m = .ok r m') :
    Realised X st.root mf.files m'.fs ↔ Consistent st.root m.fs mf.files := by
  obtain ⟨-, -, hplain, fs₂, hrestored, hsealed, hgone, hkept, -⟩ := apply_ok hroot h
  have hlisted := Fs.listed_congr hsealed st.root
  constructor
  · intro hrealised
    constructor
    · intro fe hfe fe' hfe' rel rel' hrel hrel' hcomps
      obtain ⟨q, d, hq, hd, hcontent⟩ := hrealised fe hfe
      obtain ⟨q', d', hq', hd', hcontent'⟩ := hrealised fe' hfe'
      rw [destination_of_sanitize hrel] at hq
      rw [destination_of_sanitize hrel', ← hcomps, hq] at hq'
      cases hq'
      rw [hd] at hd'
      cases hd'
      exact hcontent.symm.trans hcontent'
    · intro fe hfe rel hrel
      obtain ⟨q, d, hq, hd, -⟩ := hrealised fe hfe
      rw [destination_of_sanitize hrel] at hq
      cases hq
      have hleaf : m'.fs.leaf (st.root ++ rel.comps) = some (.file d) :=
        m'.fs.leaf_eq_some.mpr ⟨hd, by simp⟩
      have hnot : ¬ Extra st.root mf false fs₂ (st.root ++ rel.comps) := by
        intro hextra
        rw [hgone _ hextra] at hleaf
        cases hleaf
      rw [hkept _ hnot] at hleaf
      rw [not_extra_iff (fs₂.leaf_eq_some.mp hleaf).1, hlisted] at hnot
      exact hnot
  · rintro ⟨hagree, hspelled⟩ fe hfe
    obtain ⟨rel, hrel, -⟩ := hplain fe hfe
    have hdest : destination st.root fe = some (st.root ++ rel.comps) :=
      destination_of_sanitize hrel
    have hat := hrestored (st.root ++ rel.comps)
    cases hlast : lastAt st.root mf.files (st.root ++ rel.comps) with
    | none => exact absurd hdest (lastAt_eq_none.mp hlast fe hfe)
    | some last =>
        rw [hlast] at hat
        obtain ⟨d, hd, hcontent⟩ := hat
        obtain ⟨hmem, hdest'⟩ := mem_of_lastAt hlast
        obtain ⟨rel', hrel', -⟩ := hplain last hmem
        have hsame : rel.comps = rel'.comps := by
          rw [destination_of_sanitize hrel'] at hdest'
          exact (List.append_cancel_left (Option.some.inj hdest')).symm
        have hnot : ¬ Extra st.root mf false fs₂ (st.root ++ rel.comps) := by
          rw [not_extra_iff (fs₂.leaf_eq_some.mp hd).1, hlisted]
          exact hspelled fe hfe rel hrel
        have hleaf := (hkept _ hnot).trans hd
        refine ⟨_, d, hdest, (m'.fs.leaf_eq_some.mp hleaf).1, ?_⟩
        rw [hcontent]
        exact (hagree fe hfe last hmem rel rel' hrel hrel' hsame).symm

/-- A worktree of one file with these bytes; the fabric has the bytes `A`. -/
def oneFileTree (bytes : Bytes) : Fs :=
  Fs.build (Store.fabricNodes ⟨[str "w"]⟩ [] ++
    Store.blobNodes ⟨[str "w"]⟩ (str "objects") (padHash (str "A")) (str "A") ++
    [([str "w", str "a"], Store.plainFile bytes)])

example : (oneFileTree (str "B")).get [str "w", str "a"] = some (Store.plainFile (str "B")) := by
  decide +kernel

/-- The outcome of materializing these entries in that worktree. -/
def realising (files : List FileEntry) : EStateM.Result Error Machine RevertReport :=
  apply (smallCrates [] [] []) ⟨[str "w"]⟩ [str "w"] (smallManifest none none files) false
    (Machine.start (oneFileTree (str "B")))

/-- Entries at three depths, of which the tree has one with other bytes. -/
def nestedFiles : List FileEntry :=
  [smallEntry (str "a") (str "A"), smallEntry (str "d/a") (str "A"),
   { smallEntry (str "d/e/b") [] with chunks := [] }]

/-- Several entries, some of them nested, land in a worktree with other files.
-/
theorem apply_realises_nested :
    (∃ r, realising nestedFiles = .ok r (finalState (realising nestedFiles))) ∧
    Realised (smallCrates [] [] []) [str "w"] nestedFiles
      (finalState (realising nestedFiles)).fs := by
  have hok : succeeded (realising nestedFiles) = true := by decide +kernel
  obtain ⟨r, hr⟩ := exists_of_succeeded hok
  refine ⟨⟨r, hr⟩, (apply_realises_iff (smallCrates [] [] []) ⟨[str "w"]⟩ (by decide +kernel)
    hr).mpr ⟨?_, ?_⟩⟩
  · have hplaces : ∀ fe ∈ nestedFiles, ∀ fe' ∈ nestedFiles,
        (sanitizeRel fe.path).toOption.map RelPath.comps =
          (sanitizeRel fe'.path).toOption.map RelPath.comps → fe.content = fe'.content := by
      decide +kernel
    intro fe hfe fe' hfe' rel rel' hrel hrel' hcomps
    apply hplaces fe hfe fe' hfe'
    rw [hrel, hrel']
    exact congrArg some hcomps
  · have hlisted : ∀ fe ∈ nestedFiles, ∀ rel ∈ (sanitizeRel fe.path).toOption,
        relStr rel.comps ∈ nestedFiles.map FileEntry.path := by decide +kernel
    intro fe hfe rel hrel
    exact Or.inr (Or.inl (hlisted fe hfe rel (by rw [hrel]; rfl)))

/-- Two entries for one place, and one that the walk spells otherwise. -/
def repeatedFiles : List FileEntry :=
  [smallEntry (str "a") (str "A"), { smallEntry (str "a") [] with chunks := [] }]

def oddlySpelledFiles : List FileEntry := [smallEntry (str "d//a") (str "A")]

/-- **Accepted and not realised.**  After the first manifest the file has the
bytes of the second entry only, after the second one there is no file. -/
theorem accepted_not_realised :
    (∃ r, realising repeatedFiles = .ok r (finalState (realising repeatedFiles))) ∧
    ¬ Realised (smallCrates [] [] []) [str "w"] repeatedFiles
      (finalState (realising repeatedFiles)).fs ∧
    (∃ r, realising oddlySpelledFiles = .ok r (finalState (realising oddlySpelledFiles))) ∧
    ¬ Realised (smallCrates [] [] []) [str "w"] oddlySpelledFiles
      (finalState (realising oddlySpelledFiles)).fs := by
  refine ⟨exists_of_succeeded (by decide +kernel), ?_,
    exists_of_succeeded (by decide +kernel), ?_⟩
  · intro hrealised
    obtain ⟨q, d, hq, hd, hcontent⟩ := hrealised _ List.mem_cons_self
    have hwhere : destination [str "w"] (smallEntry (str "a") (str "A")) =
        some [str "w", str "a"] := by decide +kernel
    cases hwhere.symm.trans hq
    have hlast : (finalState (realising repeatedFiles)).fs.get [str "w", str "a"] =
        some (Store.plainFile []) := by decide +kernel
    cases hlast.symm.trans hd
    exact absurd hcontent (by decide)
  · intro hrealised
    obtain ⟨q, d, hq, hd, -⟩ := hrealised _ List.mem_cons_self
    have hwhere : destination [str "w"] (smallEntry (str "d//a") (str "A")) =
        some [str "w", str "d", str "a"] := by decide +kernel
    cases hwhere.symm.trans hq
    have hgone : (finalState (realising oddlySpelledFiles)).fs.get
        [str "w", str "d", str "a"] = none := by decide +kernel
    rw [hgone] at hd
    cases hd

/-! ## Permission bits -/

/-- Each entry's file has the plain permission bits of the entry. -/
def HasModes (root : Path) (files : List FileEntry) (fs : Fs) : Prop :=
  ∀ fe ∈ files, ∃ q d, destination root fe = some q ∧ fs.get q = some (.file d) ∧
    d.mode = fe.mode % 512

/-- A file that already has an entry's bytes has its bits as well. -/
def EqualFilesHaveModes (root : Path) (files : List FileEntry) (fs : Fs) : Prop :=
  ∀ fe ∈ files, ∀ q d, destination root fe = some q → fs.get q = some (.file d) →
    X.blake3 d.bytes = fe.content → d.mode = fe.mode % 512

/-- Every revert that succeeds restores the bits of every entry. -/
def AlwaysRestoresModes (X : Crates) (st : Store) : Prop :=
  ∀ (m m' : Machine) (mf : Manifest) (keepExtra : Bool) (r : RevertReport),
    m.fs.get st.root = some .dir → (∀ fe ∈ mf.files, Canonical fe.path) → Distinct mf.files →
    (∀ fe ∈ mf.files, ∀ rel, sanitizeRel fe.path = .ok rel → excluded rel.comps = false) →
    apply X st st.root mf keepExtra m = .ok r m' → HasModes st.root mf.files m'.fs

variable {X st}

/-- After a revert the file of an entry is there. -/
theorem file_of_apply {m m' : Machine} {mf : Manifest} {keepExtra : Bool} {r : RevertReport}
    (hroot : m.fs.get st.root = some .dir) (hcanonical : ∀ fe ∈ mf.files, Canonical fe.path)
    (hdistinct : Distinct mf.files) (h : apply X st st.root mf keepExtra m = .ok r m')
    {fe : FileEntry} (hfe : fe ∈ mf.files) :
    ∃ q d, destination st.root fe = some q ∧ m'.fs.get q = some (.file d) ∧
      X.blake3 d.bytes = fe.content := by
  obtain ⟨_, _, hplain, fs₂, hrestored, _, _, hkept, _⟩ := apply_ok hroot h
  obtain ⟨q, hdest, d, hd, hcontent⟩ :=
    inPlace_of_restored hcanonical hdistinct hplain hrestored fe hfe
  have hnot : ¬ Extra st.root mf keepExtra fs₂ q := by
    intro hextra
    obtain ⟨_, rel, rfl, hrem, _⟩ := hextra
    exact no_entry_of_removable hcanonical hrem fe hfe hdest
  have hleaf : m'.fs.leaf q = some (.file d) := (hkept q hnot).trans hd
  exact ⟨q, d, hdest, (m'.fs.leaf_eq_some.mp hleaf).1, hcontent⟩

/-- **The bits of a manifest come back unless the bytes were there already.**
After a revert every entry's file has the entry's plain permission bits if and
only if those files that had the entry's bytes before had its bits too. -/
theorem apply_restores_modes_iff (X : Crates) (st : Store) {m m' : Machine} {mf : Manifest}
    {keepExtra : Bool} {r : RevertReport} (hroot : m.fs.get st.root = some .dir)
    (hcanonical : ∀ fe ∈ mf.files, Canonical fe.path) (hdistinct : Distinct mf.files)
    (h : apply X st st.root mf keepExtra m = .ok r m') :
    HasModes st.root mf.files m'.fs ↔ EqualFilesHaveModes X st.root mf.files m.fs := by
  have hmodes : ∀ fe ∈ mf.files, ∀ q, destination st.root fe = some q → ∀ d,
      m'.fs.get q = some (.file d) → (¬ Differs X q fe m.fs → m.fs.get q = some (.file d)) ∧
        (Differs X q fe m.fs → d.mode = fe.mode % 512) := by
    intro fe hfe q hdest d hd
    have hleaf : m'.fs.leaf q = some (.file d) := m'.fs.leaf_eq_some.mpr ⟨hd, by simp⟩
    obtain ⟨hsame, hset⟩ := apply_modes hroot h hfe hdest
      (fun f hf hdest' => eq_of_destination hcanonical hdistinct hf hfe hdest' hdest) hleaf
    refine ⟨?_, fun hdiffers => hset hdiffers d hleaf⟩
    intro hequal
    exact (m.fs.leaf_eq_some.mp ((hsame hequal).symm.trans hleaf)).1
  constructor
  · intro hhas fe hfe q d hdest hd hcontent
    obtain ⟨q', d', hdest', hd', hmode⟩ := hhas fe hfe
    have hq : q' = q := Option.some.inj (hdest'.symm.trans hdest)
    subst hq
    -- such a file is skipped, so it is the one found afterwards
    have hequal : ¬ Differs X q' fe m.fs := fun hdiffers => hdiffers d hd hcontent
    have hkept := (hmodes fe hfe q' hdest d' hd').1 hequal
    have hdata : d = d' := by
      have heq := hd.symm.trans hkept
      simpa using heq
    rw [hdata]
    exact hmode
  · intro hequal fe hfe
    obtain ⟨q, d, hdest, hd, _⟩ := file_of_apply hroot hcanonical hdistinct h hfe
    refine ⟨q, d, hdest, hd, ?_⟩
    obtain ⟨hsame, hset⟩ := hmodes fe hfe q hdest d hd
    by_cases hdiffers : Differs X q fe m.fs
    · exact hset hdiffers
    · have hbefore := hsame hdiffers
      have hcontent : X.blake3 d.bytes = fe.content := by
        by_contra hne
        apply hdiffers
        intro d' hd'
        have hdata : d' = d := by
          have heq := hd'.symm.trans hbefore
          simpa using heq
        rw [hdata]
        exact hne
      exact hequal fe hfe q d hdest hbefore hcontent

/-- A manifest in which the file has the bytes `A` and is executable. -/
def runnableManifest : Manifest :=
  smallManifest none none [{ smallEntry (str "a") (str "A") with mode := 0o755 }]

theorem runnable_canonical : ∀ fe ∈ runnableManifest.files, Canonical fe.path := by
  intro fe hfe
  rw [List.mem_singleton.mp hfe]
  exact ⟨[str "a"], by decide, by decide, by decide⟩

/-- The entries have one destination, mode and content. -/
theorem runnable_destination {fe : FileEntry} (hfe : fe ∈ runnableManifest.files) {q : Path}
    (hq : destination [str "w"] fe = some q) : q = [str "w", str "a"] ∧ fe.mode = 0o755 ∧
      fe.content = padHash (str "A") := by
  have hwhere : destination [str "w"] { smallEntry (str "a") (str "A") with mode := 0o755 } =
      some [str "w", str "a"] := by decide +kernel
  rw [List.mem_singleton.mp hfe] at hq ⊢
  exact ⟨Option.some.inj (hq.symm.trans hwhere), rfl, rfl⟩

/-- The file had other bytes, so it gets the bits. -/
theorem apply_restores_modes_small : ∃ r, apply (smallCrates [] [] []) ⟨[str "w"]⟩ [str "w"]
      runnableManifest false (Machine.start (oneFileTree (str "B"))) = .ok r (finalState
        (apply (smallCrates [] [] []) ⟨[str "w"]⟩ [str "w"] runnableManifest false
          (Machine.start (oneFileTree (str "B"))))) ∧
    HasModes [str "w"] runnableManifest.files (finalState
      (apply (smallCrates [] [] []) ⟨[str "w"]⟩ [str "w"] runnableManifest false
        (Machine.start (oneFileTree (str "B"))))).fs := by
  obtain ⟨r, happly⟩ := exists_of_succeeded (r := apply (smallCrates [] [] []) ⟨[str "w"]⟩
    [str "w"] runnableManifest false (Machine.start (oneFileTree (str "B")))) (by decide +kernel)
  refine ⟨r, happly, ?_⟩
  refine (apply_restores_modes_iff (smallCrates [] [] []) ⟨[str "w"]⟩ (by decide +kernel)
    runnable_canonical (List.nodup_singleton _) happly).mpr ?_
  intro fe hfe q d hq hd hcontent
  obtain ⟨rfl, _, hfile⟩ := runnable_destination hfe hq
  have hfound : (Machine.start (oneFileTree (str "B"))).fs.get [str "w", str "a"] =
      some (Store.plainFile (str "B")) := by decide +kernel
  rw [hfound] at hd
  cases hd
  rw [hfile] at hcontent
  exact absurd hcontent (by decide)

/-- The file had the bytes, so it keeps its bits. -/
theorem apply_keeps_modes : ¬ AlwaysRestoresModes (smallCrates [] [] []) ⟨[str "w"]⟩ := by
  intro halways
  obtain ⟨r, happly⟩ := exists_of_succeeded (r := apply (smallCrates [] [] []) ⟨[str "w"]⟩
    [str "w"] runnableManifest false (Machine.start (oneFileTree (str "A")))) (by decide +kernel)
  have hinside : ∀ fe ∈ runnableManifest.files, ∀ rel, sanitizeRel fe.path = .ok rel →
      excluded rel.comps = false := by
    intro fe hfe rel hrel
    have hcomps : (sanitizeRel (str "a")).toOption.map RelPath.comps = some [str "a"] := by
      decide +kernel
    rw [List.mem_singleton.mp hfe] at hrel
    have hpath : sanitizeRel (str "a") = .ok rel := hrel
    rw [hpath] at hcomps
    rw [Option.some.inj hcomps]
    decide
  have hhas := halways _ _ runnableManifest false r (by decide +kernel) runnable_canonical
    (List.nodup_singleton _) hinside happly
  obtain ⟨q, d, hq, hd, hmode⟩ := hhas _ (List.mem_singleton.mpr rfl)
  obtain ⟨rfl, _⟩ := runnable_destination (List.mem_singleton.mpr rfl) hq
  have hkept : (finalState (apply (smallCrates [] [] []) ⟨[str "w"]⟩ [str "w"] runnableManifest
      false (Machine.start (oneFileTree (str "A"))))).fs.get [str "w", str "a"] =
        some (Store.plainFile (str "A")) := by decide +kernel
  rw [hkept] at hd
  cases hd
  exact absurd hmode (by decide)

end Revert

end Respawn
