import Respawn.Admission
import Respawn.Commands
import Respawn.RoundTrip

/-!
# What a guarded run gives back

A guarded run snapshots the worktree, runs a command and reverts.  What the
revert brings back is what the snapshot lists, with the mode only where it
writes, and it takes away every other file and link it gets to, whether the
command made them or not.  So the worktree is as it was before when the snapshot
listed all there was and the command did not merely change a mode
(`run_givesBack_iff`).
-/

namespace Respawn

open ByteStr FileTree StateLogic Snapshot

namespace Guard

/-- The same bytes and permission bits, or the same link target. -/
def SameEntry : Node → Node → Prop
  | .file d, .file d' => d'.bytes = d.bytes ∧ d'.mode % 512 = d.mode % 512
  | .symlink t, .symlink t' => t' = t
  | _, _ => False

/-- `fs'` has every file and link of the worktree that `fs` has, and outside
the excluded paths no other. -/
structure GivesBack (st : Store) (fs fs' : Fs) : Prop where
  back : ∀ rel x, ¬ st.fabricDir <+: st.root ++ rel → fs.leaf (st.root ++ rel) = some x →
    ∃ x', fs'.leaf (st.root ++ rel) = some x' ∧ SameEntry x x'
  only : ∀ rel, Revert.excluded rel = false → fs'.leaf (st.root ++ rel) ≠ none →
    fs.leaf (st.root ++ rel) ≠ none

/-- `fs'` still has what `fs` holds at `q`, be it a file or a link. -/
def Left (fs fs' : Fs) (q : Path) : Prop :=
  ∀ x, fs.leaf q = some x → ∃ x', fs'.leaf q = some x' ∧ SameEntry x x'

/-- What a guarded run can give back when the command left `left`.  Outside the
excluded paths all is tracked or was left where the revert does not get to, no
file has lost its mode but kept its bytes, and nothing new is where the revert
does not get to; on the excluded paths of the worktree nothing went or changed. -/
structure Recoverable (X : Crates) (st : Store) (fs left : Fs) : Prop where
  tracked : ∀ rel x, Revert.excluded rel = false → fs.leaf (st.root ++ rel) = some x →
    (∃ d, Revert.Tracked X st fs rel d) ∨
      ¬ left.Listed st.root rel ∧ Left fs left (st.root ++ rel)
  modes : ∀ rel d d', Revert.excluded rel = false → fs.get (st.root ++ rel) = some (.file d) →
    left.get (st.root ++ rel) = some (.file d') → d'.bytes = d.bytes →
      d'.mode % 512 = d.mode % 512
  hidden : ∀ rel, Revert.excluded rel = false → ¬ left.Listed st.root rel →
    left.leaf (st.root ++ rel) ≠ none → fs.leaf (st.root ++ rel) ≠ none
  apart : ∀ rel, Revert.excluded rel = true → ¬ st.fabricDir <+: st.root ++ rel →
    Left fs left (st.root ++ rel)

variable {X : Crates} {st : Store}

/-! ## The revert -/

section Revert

variable {mf : Manifest} {fs : Fs} {s₂ s₃ : Machine} {r : Revert.RevertReport}

/-- A revert leaves alone what lies on excluded paths, and, but for the tracked
files, what lies in directories that it cannot list. -/
theorem leaf_of_apply_unseen (hlists : Revert.Lists X st mf fs)
    (hroot₂ : s₂.fs.get st.root = some .dir)
    (happly : Revert.apply X st st.root mf false s₂ = .ok r s₃) {rel : Path}
    (hnone : ∀ d, ¬ Revert.Tracked X st fs rel d)
    (hunseen : Revert.excluded rel = true ∨ ¬ s₂.fs.Listed st.root rel) :
    s₃.fs.leaf (st.root ++ rel) = s₂.fs.leaf (st.root ++ rel) := by
  obtain ⟨_, _, _, fs₂, hrestored, hsealed, _, hkept, _⟩ := Revert.apply_ok hroot₂ happly
  have hat := hrestored (st.root ++ rel)
  rw [(hlists.lastAt_eq rel).2 hnone] at hat
  rw [hkept _ _]
  · exact hat
  · intro hextra
    obtain ⟨_, rel', heq, hrem, hlisted⟩ := hextra
    rw [← List.append_cancel_left heq] at hrem hlisted
    rcases hunseen with hex | hhidden
    · rw [Revert.not_excluded_of_removable hrem] at hex
      cases hex
    · exact hhidden ((Fs.listed_congr hsealed _ _).mp hlisted)

/-- A revert leaves alone what lies on excluded paths. -/
theorem leaf_of_apply_excluded (hlists : Revert.Lists X st mf fs)
    (hroot₂ : s₂.fs.get st.root = some .dir)
    (happly : Revert.apply X st st.root mf false s₂ = .ok r s₃) {rel : Path}
    (hex : Revert.excluded rel = true) :
    s₃.fs.leaf (st.root ++ rel) = s₂.fs.leaf (st.root ++ rel) := by
  apply leaf_of_apply_unseen hlists hroot₂ happly _ (Or.inl hex)
  intro d ht
  rw [ht.included] at hex
  cases hex

/-- A tracked file that still has its content keeps the node it has; any other
gets the mode it had. -/
theorem mode_of_apply (hlists : Revert.Lists X st mf fs) (hroot₂ : s₂.fs.get st.root = some .dir)
    (happly : Revert.apply X st st.root mf false s₂ = .ok r s₃) {rel : Path} {d d₃ : FileData}
    (ht : Revert.Tracked X st fs rel d) (hd₃ : s₃.fs.get (st.root ++ rel) = some (.file d₃)) :
    (¬ Revert.Differs X (st.root ++ rel) (fileEntry X rel d) s₂.fs →
        s₂.fs.get (st.root ++ rel) = some (.file d₃)) ∧
      (Revert.Differs X (st.root ++ rel) (fileEntry X rel d) s₂.fs →
        d₃.mode % 512 = d.mode % 512) := by
  have hleaf : s₃.fs.leaf (st.root ++ rel) = some (.file d₃) :=
    s₃.fs.leaf_eq_some.mpr ⟨hd₃, by simp⟩
  have honly : ∀ f ∈ mf.files, Revert.destination st.root f = some (st.root ++ rel) →
      f = fileEntry X rel d := by
    intro f hf hdest
    obtain ⟨rel', d', ht', rfl⟩ := (hlists.mem f).mp hf
    rw [hlists.dest rel' d' ht'] at hdest
    have hrel : rel' = rel := List.append_cancel_left (Option.some.inj hdest)
    subst hrel
    have hd : d' = d := by
      have heq := ht'.file.symm.trans ht.file
      simpa using heq
    rw [hd]
  obtain ⟨hsame, hset⟩ := Revert.apply_modes hroot₂ happly ((hlists.mem _).mpr ⟨rel, d, ht, rfl⟩)
    (hlists.dest rel d ht) honly hleaf
  constructor
  · intro hnot
    rw [hsame hnot] at hleaf
    exact (s₂.fs.leaf_eq_some.mp hleaf).1
  · intro hdiffers
    rw [hset hdiffers d₃ hleaf]
    simp [fileEntry]

/-- A file that the snapshot lists has the node it is listed with. -/
theorem node_of_tracked {rel : Path} {d : FileData} {x : Node}
    (ht : Revert.Tracked X st fs rel d) (hx : fs.leaf (st.root ++ rel) = some x) :
    x = .file d := by
  have heq := (fs.leaf_eq_some.mp hx).1.symm.trans ht.file
  simpa using heq

/-- It is a leaf of the tree. -/
theorem leaf_of_tracked {rel : Path} (ht : ∃ d, Revert.Tracked X st fs rel d) :
    fs.leaf (st.root ++ rel) ≠ none := by
  obtain ⟨d, ht⟩ := ht
  rw [fs.leaf_eq_some.mpr ⟨ht.file, by simp⟩]
  simp

section Applied

variable (hlists : Revert.Lists X st mf fs) (hroot₂ : s₂.fs.get st.root = some .dir)
  (hmatch : Revert.Matches X st fs s₂.fs s₃.fs)
  (happly : Revert.apply X st st.root mf false s₂ = .ok r s₃)

include hlists hroot₂ hmatch happly

/-- Where the revert does not get to, the result is what the command left. -/
theorem untracked_of_apply {rel : Path} (hex : Revert.excluded rel = false)
    (hnone : ¬ ∃ d, Revert.Tracked X st fs rel d) (hsome : s₃.fs.leaf (st.root ++ rel) ≠ none) :
    ¬ s₂.fs.Listed st.root rel ∧
      s₃.fs.leaf (st.root ++ rel) = s₂.fs.leaf (st.root ++ rel) := by
  have hnone' : ∀ d, ¬ Revert.Tracked X st fs rel d := fun d ht => hnone ⟨d, ht⟩
  have hhidden : ¬ s₂.fs.Listed st.root rel := fun hlisted =>
    hsome (hmatch.other rel hex hnone' hlisted)
  exact ⟨hhidden, leaf_of_apply_unseen hlists hroot₂ happly hnone' (Or.inr hhidden)⟩

/-- What is given back and was not in the snapshot was left by the command. -/
theorem left_of_givesBack (hgives : GivesBack st fs s₃.fs) {rel : Path}
    (hex : Revert.excluded rel = false) (hnone : ¬ ∃ d, Revert.Tracked X st fs rel d)
    (hsome : fs.leaf (st.root ++ rel) ≠ none) :
    ¬ s₂.fs.Listed st.root rel ∧ Left fs s₂.fs (st.root ++ rel) := by
  obtain ⟨x, hx⟩ := Option.ne_none_iff_exists'.mp hsome
  have hout : ¬ st.fabricDir <+: st.root ++ rel := Revert.not_fabric_of_not_excluded hex
  obtain ⟨x', hx', _⟩ := hgives.back rel x hout hx
  obtain ⟨hhidden, hsame⟩ :=
    untracked_of_apply hlists hroot₂ hmatch happly hex hnone (by rw [hx']; simp)
  refine ⟨hhidden, ?_⟩
  intro y hy
  rw [← hsame]
  exact hgives.back rel y hout hy

/-- Where all is given back, no file has lost its mode but kept its bytes. -/
theorem modes_of_givesBack
    (hcontent : ∀ rel d, (fileEntry X rel d).content = X.blake3 d.bytes)
    (hgives : GivesBack st fs s₃.fs) {rel : Path} {d d' : FileData}
    (hex : Revert.excluded rel = false) (hd : fs.get (st.root ++ rel) = some (.file d))
    (hd' : s₂.fs.get (st.root ++ rel) = some (.file d')) (hbytes : d'.bytes = d.bytes) :
    d'.mode % 512 = d.mode % 512 := by
  have hleaf : fs.leaf (st.root ++ rel) = some (.file d) := fs.leaf_eq_some.mpr ⟨hd, by simp⟩
  by_cases htracked : ∃ d₀, Revert.Tracked X st fs rel d₀
  · obtain ⟨d₀, ht⟩ := htracked
    cases node_of_tracked ht hleaf
    obtain ⟨d₃, hd₃, _⟩ := hmatch.tracked rel d ht
    have hnot : ¬ Revert.Differs X (st.root ++ rel) (fileEntry X rel d) s₂.fs := by
      intro hdiffers
      exact hdiffers d' hd' (by rw [hcontent, hbytes])
    -- the file was not written, and its mode was not set
    have hsame := (mode_of_apply hlists hroot₂ happly ht hd₃).1 hnot
    cases hsame.symm.trans hd'
    obtain ⟨x', hx', hentry⟩ := hgives.back rel _ (Revert.not_fabric_of_not_excluded hex) hleaf
    cases (s₃.fs.leaf_eq_some.mp hx').1.symm.trans hd₃
    exact hentry.2
  · obtain ⟨_, hleft⟩ := left_of_givesBack hlists hroot₂ hmatch happly hgives hex htracked
      (by rw [hleaf]; simp)
    obtain ⟨x', hx', hentry⟩ := hleft _ hleaf
    cases (s₂.fs.leaf_eq_some.mp hx').1.symm.trans hd'
    exact hentry.2

/-- What a revert gives back could be given back. -/
theorem recoverable_of_givesBack
    (hcontent : ∀ rel d, (fileEntry X rel d).content = X.blake3 d.bytes)
    (hgives : GivesBack st fs s₃.fs) : Recoverable X st fs s₂.fs := by
  refine ⟨?_, ?_, ?_, ?_⟩
  · intro rel x hex hx
    by_cases ht : ∃ d, Revert.Tracked X st fs rel d
    · exact Or.inl ht
    · exact Or.inr (left_of_givesBack hlists hroot₂ hmatch happly hgives hex ht
        (by rw [hx]; simp))
  · intro rel d d' hex hd hd' hbytes
    exact modes_of_givesBack hlists hroot₂ hmatch happly hcontent hgives hex hd hd' hbytes
  · intro rel hex hhidden hsome
    by_cases htracked : ∃ d, Revert.Tracked X st fs rel d
    · exact leaf_of_tracked htracked
    · apply hgives.only rel hex
      rw [leaf_of_apply_unseen hlists hroot₂ happly (fun d h => htracked ⟨d, h⟩) (Or.inr hhidden)]
      exact hsome
  · intro rel hex hout x hx
    rw [← leaf_of_apply_excluded hlists hroot₂ happly hex]
    exact hgives.back rel x hout hx

/-- What can be given back is given back. -/
theorem givesBack_of_recoverable (hrec : Recoverable X st fs s₂.fs) : GivesBack st fs s₃.fs := by
  constructor
  · intro rel x hout hx
    by_cases hex : Revert.excluded rel = true
    · rw [leaf_of_apply_excluded hlists hroot₂ happly hex]
      exact hrec.apart rel hex hout x hx
    · have hex : Revert.excluded rel = false := by simpa using hex
      by_cases htracked : ∃ d, Revert.Tracked X st fs rel d
      · obtain ⟨d, ht⟩ := htracked
        obtain rfl := node_of_tracked ht hx
        obtain ⟨d₃, hd₃, hbytes⟩ := hmatch.tracked rel d ht
        refine ⟨.file d₃, s₃.fs.leaf_eq_some.mpr ⟨hd₃, by simp⟩, hbytes, ?_⟩
        obtain ⟨hsame, hset⟩ := mode_of_apply hlists hroot₂ happly ht hd₃
        by_cases hdiffers : Revert.Differs X (st.root ++ rel) (fileEntry X rel d) s₂.fs
        · exact hset hdiffers
        · exact hrec.modes rel d d₃ hex ht.file (hsame hdiffers) hbytes
      · rcases hrec.tracked rel x hex hx with ht | ⟨hhidden, hleft⟩
        · exact absurd ht htracked
        · rw [leaf_of_apply_unseen hlists hroot₂ happly (fun d h => htracked ⟨d, h⟩)
            (Or.inr hhidden)]
          exact hleft x hx
  · intro rel hex hsome
    by_cases htracked : ∃ d, Revert.Tracked X st fs rel d
    · exact leaf_of_tracked htracked
    · obtain ⟨hhidden, hsame⟩ :=
        untracked_of_apply hlists hroot₂ hmatch happly hex htracked hsome
      exact hrec.hidden rel hex hhidden (hsame ▸ hsome)

end Applied

/-- **What a revert to the snapshot of `fs` gives back of `fs`.** -/
theorem apply_givesBack_iff
    (hcdc : ∀ data, (X.fastcdc CDC_MIN CDC_AVG CDC_MAX data).flatten = data)
    (hlists : Revert.Lists X st mf fs) (hroot : fs.get st.root = some .dir)
    (hroot₂ : s₂.fs.get st.root = some .dir) (hplain : Revert.PlainLeaves st.root fs)
    (hplain₂ : Revert.PlainLeaves st.root s₂.fs)
    (hhash : ∀ rel d d', Revert.Tracked X st fs rel d →
      s₃.fs.get (st.root ++ rel) = some (.file d') → X.blake3 d.bytes = X.blake3 d'.bytes →
        d.bytes = d'.bytes)
    (happly : Revert.apply X st st.root mf false s₂ = .ok r s₃) :
    GivesBack st fs s₃.fs ↔ Recoverable X st fs s₂.fs := by
  have hmatch := Revert.matches_of_apply hcdc hlists hroot hroot₂ hplain hplain₂ hhash happly
  -- the content of an entry is the hash of the file's bytes
  have hcontent : ∀ rel d, (fileEntry X rel d).content = X.blake3 d.bytes := by
    intro rel d
    simp only [fileEntry, Revert.flatten_chunksOf hcdc]
  constructor
  · exact recoverable_of_givesBack hlists hroot₂ hmatch happly hcontent
  · exact givesBack_of_recoverable hlists hroot₂ hmatch happly

end Revert

/-! ## The worktree and the fabric -/

section Frames

variable {fs fs' : Fs}

/-- The worktree outside the fabric decides what is given back. -/
theorem GivesBack.congr {fs₂ fs₂' : Fs} (h : GivesBack st fs fs')
    (hout : ∀ q, ¬ st.fabricDir <+: q → fs₂.get q = fs.get q)
    (hout' : ∀ q, ¬ st.fabricDir <+: q → fs₂'.get q = fs'.get q) : GivesBack st fs₂ fs₂' := by
  have hleaf : ∀ q, ¬ st.fabricDir <+: q → fs₂.leaf q = fs.leaf q := by
    intro q hq
    unfold Fs.leaf
    rw [hout q hq]
  have hleaf' : ∀ q, ¬ st.fabricDir <+: q → fs₂'.leaf q = fs'.leaf q := by
    intro q hq
    unfold Fs.leaf
    rw [hout' q hq]
  constructor
  · intro rel x hrel hx
    rw [hleaf _ hrel] at hx
    rw [hleaf' _ hrel]
    exact h.back rel x hrel hx
  · intro rel hex hx
    have hrel : ¬ st.fabricDir <+: st.root ++ rel := Revert.not_fabric_of_not_excluded hex
    rw [hleaf' _ hrel] at hx
    rw [hleaf _ hrel]
    exact h.only rel hex hx

/-- The file `.fabricignore` is not in the fabric. -/
theorem ignorePath_outside : ¬ st.fabricDir <+: st.root ++ [str ".fabricignore"] :=
  Revert.not_fabric_of_not_excluded (by decide)

/-- The patterns are those of the worktree outside the fabric. -/
theorem ignorePatterns_congr (hreal : st.Real fs) (hreal' : st.Real fs')
    (hout : ∀ q, ¬ st.fabricDir <+: q → fs'.get q = fs.get q)
    (hlink : ∀ t, fs.get (st.root ++ [str ".fabricignore"]) ≠ some (.symlink t)) :
    ignorePatterns st.root fs' = ignorePatterns st.root fs := by
  have hroot : fs.get st.root = some .dir := Fs.dir_of_prefix hreal.dir (List.prefix_append _ _)
  have hroot' : fs'.get st.root = some .dir :=
    Fs.dir_of_prefix hreal'.dir (List.prefix_append _ _)
  have hnames : ∀ n ∈ st.root ++ [str ".fabricignore"], ValidName n := by
    intro n hn
    rcases List.mem_append.mp hn with hn | hn
    · exact fs.valid_of_get hroot hn
    · rw [List.mem_singleton.mp hn]
      decide
  have hread := Fs.read_congr hnames (by simp) (by rw [List.dropLast_concat]; exact hroot)
    (by rw [List.dropLast_concat]; exact hroot') hlink (hout _ ignorePath_outside)
  unfold ignorePatterns Fs.readToString
  rw [hread]

/-- The tombstones are those of their file. -/
theorem tombstones_congr (hreal : st.Real fs) (hreal' : st.Real fs')
    (htomb : fs'.get (tombstonePath st) = fs.get (tombstonePath st)) :
    tombstones X st fs' = tombstones X st fs := by
  have hread := Fs.read_congr (Purge.record_names hreal (by decide))
    (by simp) (by rw [List.dropLast_concat]; exact hreal.dir)
    (by rw [List.dropLast_concat]; exact hreal'.dir)
    (fun t => hreal.links _ t (List.prefix_append _ _)) htomb
  unfold tombstones Fs.readToString tombstonePath
  rw [hread]

/-- So do the tombstones decide, besides, what is in play. -/
theorem inPlay_congr (hreal : st.Real fs) (hreal' : st.Real fs')
    (hout : ∀ q, ¬ st.fabricDir <+: q → fs'.get q = fs.get q)
    (htomb : fs'.get (tombstonePath st) = fs.get (tombstonePath st))
    (hignore : ignorePatterns st.root fs' = ignorePatterns st.root fs)
    {rel : Path} {d : FileData} (h : Revert.InPlay X st fs rel d) :
    Revert.InPlay X st fs' rel d := by
  have htombs : tombstones X st fs' = tombstones X st fs := tombstones_congr hreal hreal' htomb
  refine ⟨?_, h.included, ?_, ?_⟩
  · rw [hout _ (Revert.not_fabric_of_not_excluded h.included)]
    exact h.file
  · rw [hignore]
    exact h.kept
  · have hpurged := h.unpurged
    unfold isPurged at hpurged ⊢
    rw [htombs]
    exact hpurged

/-- What is tracked is told by what lies outside the fabric, and the tombstones.
-/
theorem tracked_congr (hreal : st.Real fs) (hreal' : st.Real fs')
    (hout : ∀ q, ¬ st.fabricDir <+: q → fs'.get q = fs.get q) (hsealed : fs'.sealed = fs.sealed)
    (htomb : fs'.get (tombstonePath st) = fs.get (tombstonePath st))
    (hignore : ignorePatterns st.root fs' = ignorePatterns st.root fs)
    {rel : Path} {d : FileData} (h : Revert.Tracked X st fs rel d) :
    Revert.Tracked X st fs' rel d := by
  exact ⟨inPlay_congr hreal hreal' hout htomb hignore h.toInPlay,
    (Fs.listed_congr hsealed _ _).mpr h.listed⟩

/-- So is what can be given back. -/
theorem Recoverable.congr {left : Fs} (h : Recoverable X st fs left) (hreal : st.Real fs)
    (hreal' : st.Real fs') (hout : ∀ q, ¬ st.fabricDir <+: q → fs'.get q = fs.get q)
    (hsealed : fs'.sealed = fs.sealed)
    (htomb : fs'.get (tombstonePath st) = fs.get (tombstonePath st))
    (hignore : ignorePatterns st.root fs' = ignorePatterns st.root fs) :
    Recoverable X st fs' left := by
  have hleaf : ∀ q, ¬ st.fabricDir <+: q → fs'.leaf q = fs.leaf q := by
    intro q hq
    unfold Fs.leaf
    rw [hout q hq]
  refine ⟨?_, ?_, ?_, ?_⟩
  · intro rel x hex hx
    rw [hleaf _ (Revert.not_fabric_of_not_excluded hex)] at hx
    rcases h.tracked rel x hex hx with ⟨d, htracked⟩ | ⟨hhidden, hleft⟩
    · exact Or.inl ⟨d, tracked_congr hreal hreal' hout hsealed htomb hignore htracked⟩
    · refine Or.inr ⟨hhidden, ?_⟩
      intro y hy
      rw [hleaf _ (Revert.not_fabric_of_not_excluded hex)] at hy
      exact hleft y hy
  · intro rel d d' hex hd
    rw [hout _ (Revert.not_fabric_of_not_excluded hex)] at hd
    exact h.modes rel d d' hex hd
  · intro rel hex hhidden hsome
    rw [hleaf _ (Revert.not_fabric_of_not_excluded hex)]
    exact h.hidden rel hex hhidden hsome
  · intro rel hex hrel x hx
    rw [hleaf _ hrel] at hx
    exact h.apart rel hex hrel x hx

end Frames

/-! ## The run -/

variable (X st)

/-- The states a guarded run passes: `m₁` when the lock is taken, `m₂` when the
manifest is made, `before` when it is stored, `left` when the command has
ended. -/
structure Phases (argv : List Bytes) (child : Child) (m m₁ m₂ before left : Machine)
    (mf : Manifest) (snap : Hash) (status : ExitStatus) : Prop where
  lock : st.tryLock m = .ok () m₁
  build : buildManifest X st st.root (str "guard: " ++ joinWords argv) none m₁ = .ok mf m₂
  store : storeManifest X st mf m₂ = .ok snap before
  ended : spawn child before = .ok (.ok status) left

variable {X st}

/-- A run that succeeds passes such states, and settles what the command left. -/
theorem phases_of_run {argv : List Bytes} {policy : RevertPolicy} {fullDrift : Bool}
    {child : Child} {m m' : Machine} {report : GuardReport}
    (h : run X st argv policy fullDrift child m = .ok report m') :
    ∃ m₁ m₂ before left mf snap status,
      Phases X st argv child m m₁ m₂ before left mf snap status ∧
        settle X st argv policy fullDrift snap status left = .ok report m' := by
  unfold run at h
  split at h
  · obtain ⟨_, _, hthrow, _⟩ := bind_eq_ok.mp h
    cases hthrow
  · obtain ⟨_, m₁, hlock, hrest⟩ := bind_eq_ok.mp h
    obtain ⟨prev, m₁', hlook, hrest₁⟩ := bind_eq_ok.mp hrest
    obtain ⟨_, rfl⟩ := look_eq_ok.mp hlook
    obtain ⟨snap, before, hcreate, hrest₂⟩ := bind_eq_ok.mp hrest₁
    obtain ⟨mf, m₂, hbuild, hstore⟩ := bind_eq_ok.mp hcreate
    obtain ⟨spawned, left, hspawn, hend⟩ := bind_eq_ok.mp hrest₂
    cases spawned with
    | error e =>
        obtain ⟨_, _, _, hthrow⟩ := bind_eq_ok.mp hend
        cases hthrow
    | ok status =>
        exact ⟨m₁', m₂, before, left, mf, snap, status, ⟨hlock, hbuild, hstore, hspawn⟩, hend⟩

/-- The phases determine what a run settles. -/
theorem Phases.settle_eq {argv : List Bytes} {policy : RevertPolicy} {fullDrift : Bool}
    {child : Child} {m m₁ m₂ before left m' : Machine} {mf : Manifest} {snap : Hash}
    {status : ExitStatus} {report : GuardReport}
    (h : Phases X st argv child m m₁ m₂ before left mf snap status)
    (hrun : run X st argv policy fullDrift child m = .ok report m') :
    settle X st argv policy fullDrift snap status left = .ok report m' := by
  obtain ⟨n₁, n₂, before', left', mf', snap', status', h', hsettle⟩ := phases_of_run hrun
  have hlock := h'.lock.symm.trans h.lock
  cases hlock
  have hbuild := h'.build.symm.trans h.build
  cases hbuild
  have hstore := h'.store.symm.trans h.store
  cases hstore
  have hended := h'.ended.symm.trans h.ended
  cases hended
  exact hsettle

/-- A run that settles with a revert applied the snapshot it loaded; then HEAD
and the log were written. -/
theorem settle_reverted {argv : List Bytes} {policy : RevertPolicy} {fullDrift : Bool}
    {snap : Hash} {status : ExitStatus} {left m' : Machine} {report : GuardReport}
    (hpolicy : shouldRevert policy status = true)
    (h : settle X st argv policy fullDrift snap status left = .ok report m') :
    ∃ mf r s₃ s₄ detail, load X st left.fs snap = .ok mf ∧
      Revert.apply X st st.root mf false left = .ok r s₃ ∧
      st.setHead (some snap) s₃ = .ok () s₄ ∧
      Audit.record X st (str "guard") detail s₄ = .ok () m' := by
  unfold settle at h
  obtain ⟨mf, left₁, hlook, hrest⟩ := bind_eq_ok.mp h
  obtain ⟨hload, rfl⟩ := look_eq_ok.mp hlook
  obtain ⟨drift, left₂, hlook', hrest₁⟩ := bind_eq_ok.mp hrest
  obtain ⟨_, rfl⟩ := look_eq_ok.mp hlook'
  simp only [hpolicy, if_true] at hrest₁
  obtain ⟨r, s₃, happly, hrest₂⟩ := bind_eq_ok.mp hrest₁
  obtain ⟨_, s₄, hhead, hrest₃⟩ := bind_eq_ok.mp hrest₂
  obtain ⟨_, s₅, hrecord, hpure⟩ := bind_eq_ok.mp hrest₃
  cases hpure
  exact ⟨mf, r, s₃, s₄, _, hload, happly, hhead, hrecord⟩

section Run

variable {argv : List Bytes} {child : Child} {m m₁ m₂ before left : Machine} {mf : Manifest}
  {snap : Hash} {status : ExitStatus}

/-- The lock touches only itself. -/
theorem Phases.locked (h : Phases X st argv child m m₁ m₂ before left mf snap status)
    (hreal : st.Real m.fs) : st.Touched (st.Within [str "lock"]) m.fs m₁.fs := by
  have hlock : After (st.tryLock m) _ _ := Store.tryLock_touching m hreal
  rw [h.lock] at hlock
  exact hlock

/-- Taking the lock adds an empty file and nothing else. -/
theorem Phases.locked_adds (h : Phases X st argv child m m₁ m₂ before left mf snap status) :
    Store.AddsEmpty m.fs m₁.fs := by
  have hlock : After (st.tryLock m) _ _ := Store.tryLock_addsEmpty m
  rw [h.lock] at hlock
  exact hlock

theorem Phases.created (h : Phases X st argv child m m₁ m₂ before left mf snap status) :
    createFromActor X st st.root (str "guard: " ++ joinWords argv) none m₁ = .ok snap before := by
  unfold createFromActor
  exact bind_eq_ok.mpr ⟨mf, m₂, h.build, h.store⟩

/-- The snapshot is stored under its hash. -/
theorem Phases.snap_eq (h : Phases X st argv child m m₁ m₂ before left mf snap status) :
    snap = X.blake3 (mf.serialize X) := by
  obtain ⟨id, m₃, hput, hrest⟩ := bind_eq_ok.mp h.store
  obtain ⟨_, m₄, _, hpure⟩ := bind_eq_ok.mp hrest
  cases hpure
  obtain ⟨_, m₅, _, hid⟩ := bind_eq_ok.mp hput
  cases hid
  rfl

/-- A name of the lock is no name of a blob. -/
theorem proper_of_lock {q : Path} {bytes : Bytes} (h : st.Within [str "lock"] q) :
    Proper X st q bytes := by
  obtain ⟨n, rest, rfl, hn | ⟨pid, k, tag, rfl⟩⟩ := h
  · rw [List.mem_singleton.mp hn]
    exact proper_elsewhere (by decide) (by decide)
  · apply proper_elsewhere
    · intro heq
      exact Store.tmpName_not_record pid k tag (heq ▸ by decide)
    · intro heq
      exact Store.tmpName_not_record pid k tag (heq ▸ by decide)

/-- The fabric is sound when the command has left it alone. -/
theorem Phases.sound_left (h : Phases X st argv child m m₁ m₂ before left mf snap status)
    (hsound : Sound X st m.fs) (hzstd : Lossless X)
    (hfabric : ∀ q, st.fabricDir <+: q → left.fs.get q = before.fs.get q) :
    Sound X st left.fs := by
  have hsound₁ : Sound X st m₁.fs :=
    hsound.of_touched (h.locked hsound.real) fun _ _ => proper_of_lock
  have hcreate : After (createFromActor X st st.root (str "guard: " ++ joinWords argv) none m₁)
      _ _ := createFromActor_sound hzstd hsound₁
  rw [h.created] at hcreate
  exact Sound.of_outside hcreate hfabric

/-- **What the run loads after the command is what it captured before it.** -/
theorem Phases.load_eq (h : Phases X st argv child m m₁ m₂ before left mf snap status)
    (hleft : Sound X st left.fs) (hjson : X.manifestOfJson (mf.serialize X) = .ok mf)
    (hhash : ∀ b ∈ left.fs.contents, X.blake3 b = X.blake3 (mf.serialize X) → b = mf.serialize X)
    {mf' : Manifest} (hload : load X st left.fs snap = .ok mf') : mf' = mf := by
  obtain ⟨d, hd, hdecode⟩ := (load_eq_ok hleft.real).mp hload
  have hnamed : X.blake3 d.bytes = snap := (hleft.addressed _ d hd).manifest snap rfl
  have hbytes : d.bytes = mf.serialize X :=
    hhash _ (left.fs.mem_contents hd) (hnamed.trans h.snap_eq)
  rw [hbytes] at hdecode
  exact Except.ok.inj ((Manifest.decode_ok hdecode).1.symm.trans hjson)

/-- The byte strings whose hashes a guarded run compares. -/
def atHand (X : Crates) (mf : Manifest) (fs left fs' : Fs) : List Bytes :=
  mf.serialize X :: (fs.contents ++ left.contents ++ fs'.contents)

/-- **What a guarded run gives back.**  Let a guarded run succeed that reverts,
on a sound fabric that the command left alone, among files and links of plain
names.  The worktree is as it was before exactly when outside the excluded
paths everything was tracked or was left alone in a directory that could not be
listed then, the command changed no mode without changing the bytes, put nothing
new into such a directory, and left alone what lies on excluded paths. -/
theorem run_givesBack_iff
    (hcdc : ∀ data, (X.fastcdc CDC_MIN CDC_AVG CDC_MAX data).flatten = data)
    (hzstd : Lossless X) (hsound : Sound X st m.fs)
    {policy : RevertPolicy} {fullDrift : Bool} {m' : Machine} {report : GuardReport}
    (hrun : run X st argv policy fullDrift child m = .ok report m')
    (h : Phases X st argv child m m₁ m₂ before left mf snap status)
    (hpolicy : shouldRevert policy status = true)
    (hfabric : ∀ q, st.fabricDir <+: q → left.fs.get q = before.fs.get q)
    (hplain : Revert.PlainLeaves st.root m.fs) (hplain' : Revert.PlainLeaves st.root left.fs)
    (hjson : X.manifestOfJson (mf.serialize X) = .ok mf)
    (hhash : ∀ a ∈ atHand X mf m.fs left.fs m'.fs, ∀ b ∈ atHand X mf m.fs left.fs m'.fs,
      X.blake3 a = X.blake3 b → a = b) :
    GivesBack st m.fs m'.fs ↔ Recoverable X st m.fs left.fs := by
  obtain ⟨mf', r, s₃, s₄, detail, hload, happly, hhead, hrecord⟩ :=
    settle_reverted hpolicy (h.settle_eq hrun)
  have hleft := h.sound_left hsound hzstd hfabric
  have hmf : mf' = mf := by
    apply h.load_eq hleft hjson _ hload
    intro b hb hsame
    exact hhash b (by simp [atHand, hb]) _ (by simp [atHand]) hsame
  subst hmf
  have hlock := h.locked hsound.real
  have hadds := h.locked_adds
  have hout₁ : ∀ q, ¬ st.fabricDir <+: q → m₁.fs.get q = m.fs.get q := fun q hq =>
    hlock.frame q fun hw => hq hw.fabric
  have hreal₂ := hleft.real
  have hdir : ∀ {fs : Fs}, st.Real fs → fs.get st.root = some .dir := fun hreal =>
    Fs.dir_of_prefix hreal.dir (List.prefix_append _ _)
  -- what comes after the revert stays in the fabric
  have hout₃ : ∀ q, ¬ st.fabricDir <+: q → m'.fs.get q = s₃.fs.get q := by
    have htouches : After (Revert.apply X st st.root mf' false left) _ _ :=
      Revert.apply_touches hreal₂
    rw [happly] at htouches
    have hset : After (st.setHead (some snap) s₃) _ _ :=
      Store.setHead_touching (some snap) s₃ htouches.real
    rw [hhead] at hset
    have hlog : After (Audit.record X st (str "guard") detail s₄) _ _ :=
      Audit.record_touching (str "guard") detail s₄ hset.real
    rw [hrecord] at hlog
    intro q hq
    rw [hlog.frame q fun hw => hq hw.fabric, hset.frame q fun hw => hq hw.fabric]
  have hplain₁ : Revert.PlainLeaves st.root m₁.fs := by
    intro rel x hex hx
    apply hplain rel x hex
    unfold Fs.leaf at hx ⊢
    rw [← hout₁ _ (Revert.not_fabric_of_not_excluded hex)]
    exact hx
  have hlists := Revert.lists_of_build hcdc hlock.real hplain₁ h.build
  have htomb : m₁.fs.get (tombstonePath st) = m.fs.get (tombstonePath st) :=
    hlock.frame _ (Store.not_within (by decide) (by decide))
  have hcollide : ∀ rel d d', Revert.Tracked X st m₁.fs rel d →
      s₃.fs.get (st.root ++ rel) = some (.file d') → X.blake3 d.bytes = X.blake3 d'.bytes →
        d.bytes = d'.bytes := by
    intro rel d d' ht hd' hsame
    have hrel : ¬ st.fabricDir <+: st.root ++ rel :=
      Revert.not_fabric_of_not_excluded ht.included
    have hd : m.fs.get (st.root ++ rel) = some (.file d) := (hout₁ _ hrel).symm.trans ht.file
    have hd₃ : m'.fs.get (st.root ++ rel) = some (.file d') := (hout₃ _ hrel).trans hd'
    apply hhash _ _ _ _ hsame
    · simp [atHand, m.fs.mem_contents hd]
    · simp [atHand, m'.fs.mem_contents hd₃]
  have hiff := apply_givesBack_iff hcdc hlists (hdir hlock.real) (hdir hreal₂) hplain₁ hplain'
    hcollide happly
  constructor
  · intro hgives
    have hgives₁ := hiff.mp (hgives.congr hout₁ fun q hq => (hout₃ q hq).symm)
    exact hgives₁.congr hlock.real hsound.real (fun q hq => (hout₁ q hq).symm) hadds.sealed.symm
      htomb.symm (hadds.ignorePatterns_eq st.root).symm
  · intro hrec
    have hrec₁ := hrec.congr hsound.real hlock.real hout₁ hadds.sealed htomb
      (hadds.ignorePatterns_eq st.root)
    exact (hiff.mpr hrec₁).congr (fun q hq => (hout₁ q hq).symm) hout₃

end Run

/-! ## Small runs -/

/-- The snapshot that a guarded run of the command `x` takes. -/
def guardedManifest (files : List FileEntry) : Manifest :=
  { smallManifest none none files with message := str "guard: x" }

/-- Crates that encode this snapshot. -/
def guardCrates (files : List FileEntry) : Crates :=
  smallCrates [(str "m", guardedManifest files)] [] []

/-- An empty fabric in a worktree with these nodes. -/
def guardTree (nodes : List (Path × Node)) : Fs :=
  Fs.build (Store.fabricNodes ⟨[str "w"]⟩ [] ++ nodes)

/-- The command `x`, which does this to the tree and succeeds. -/
def command (effect : Fs → Fs) : Child :=
  fun w => .ok (⟨some 0, none⟩, { w with fs := effect w.fs })

section Small

variable (files : List FileEntry) (nodes : List (Path × Node)) (effect : Fs → Fs)

/-- The machine after the snapshot, and as the command leaves it. -/
abbrev smallLocked : Machine := Cli.locked ⟨[str "w"]⟩ (Machine.start (guardTree nodes))

abbrev smallBuilt : EStateM.Result Error Machine Manifest :=
  buildManifest (guardCrates files) ⟨[str "w"]⟩ [str "w"] (str "guard: x") none (smallLocked nodes)

abbrev smallStored : EStateM.Result Error Machine Hash :=
  storeManifest (guardCrates files) ⟨[str "w"]⟩ (guardedManifest files)
    (finalState (smallBuilt files nodes))

abbrev smallLeft : Machine :=
  { finalState (smallStored files nodes) with
    fs := effect (finalState (smallStored files nodes)).fs }

/-- The guarded run, which reverts always. -/
abbrev smallRun : EStateM.Result Error Machine GuardReport :=
  run (guardCrates files) ⟨[str "w"]⟩ [str "x"] .always false (command effect)
    (Machine.start (guardTree nodes))

variable {files nodes effect}

/-- The phases of a small guarded run. -/
theorem phases_small (hlock : succeeded (Store.tryLock ⟨[str "w"]⟩
      (Machine.start (guardTree nodes))) = true)
    (hbuild : yields (guardedManifest files) (smallBuilt files nodes) = true)
    (hstore : yields (padHash (str "m")) (smallStored files nodes) = true) :
    Phases (guardCrates files) ⟨[str "w"]⟩ [str "x"] (command effect)
      (Machine.start (guardTree nodes)) (smallLocked nodes) (finalState (smallBuilt files nodes))
      (finalState (smallStored files nodes)) (smallLeft files nodes effect)
      (guardedManifest files) (padHash (str "m")) ⟨some 0, none⟩ :=
  ⟨eq_ok_of_succeeded hlock, eq_ok_of_yields hbuild, eq_ok_of_yields hstore, rfl⟩

/-- A command that keeps to the worktree leaves the fabric as it was stored. -/
theorem smallLeft_frame
    (h : ∀ (fs : Fs) q, Store.fabricDir ⟨[str "w"]⟩ <+: q → (effect fs).get q = fs.get q) (q : Path)
    (hq : Store.fabricDir ⟨[str "w"]⟩ <+: q) :
    (smallLeft files nodes effect).fs.get q = (finalState (smallStored files nodes)).fs.get q :=
  h _ q hq

end Small

/-- A worktree with one file, which the command overwrites. -/
def oneFile : List (Path × Node) := [([str "w", str "a"], Store.plainFile (str "A"))]

def oneEntry : List FileEntry := [smallEntry (str "a") (str "A")]

def overwrite (fs : Fs) : Fs :=
  fs.modifyFile [str "w", str "a"] fun d => { d with bytes := str "B" }

/-- The command leaves the fabric. -/
theorem overwrite_frame (fs : Fs) (q : Path) (hq : Store.fabricDir ⟨[str "w"]⟩ <+: q) :
    (overwrite fs).get q = fs.get q := by
  apply Fs.get_modifyFile_of_ne
  intro heq
  rw [heq] at hq
  exact absurd hq (by decide)

/-- What it overwrites can be given back. -/
theorem recoverable_overwritten :
    Recoverable (guardCrates oneEntry) ⟨[str "w"]⟩ (guardTree oneFile)
      (smallLeft oneEntry oneFile overwrite).fs := by
  have hfile : (guardTree oneFile).get [str "w", str "a"] = some (Store.plainFile (str "A")) := by
    decide +kernel
  have honly : ∀ rel x, Revert.excluded rel = false →
      (guardTree oneFile).leaf ([str "w"] ++ rel) = some x → rel = [str "a"] := by
    intro rel x hex hx
    have hkeys : ∀ k ∈ (guardTree oneFile).nodes.keys, (guardTree oneFile).leaf k ≠ none →
        Revert.excluded (k.drop 1) = false → k = [str "w", str "a"] := by decide +kernel
    have hk := hkeys _ ((guardTree oneFile).mem_keys ((guardTree oneFile).leaf_eq_some.mp hx).1)
      (fun hnone => by rw [hnone] at hx; cases hx) hex
    exact (List.cons.inj hk).2
  have hexcluded : ∀ rel x, Revert.excluded rel = true →
      (guardTree oneFile).leaf ([str "w"] ++ rel) = some x →
        Store.fabricDir ⟨[str "w"]⟩ <+: [str "w"] ++ rel := by
    intro rel x hex hx
    have hkeys : ∀ k ∈ (guardTree oneFile).nodes.keys, Revert.excluded (k.drop 1) = true →
        Store.fabricDir ⟨[str "w"]⟩ <+: k := by decide +kernel
    exact hkeys _ ((guardTree oneFile).mem_keys ((guardTree oneFile).leaf_eq_some.mp hx).1) hex
  refine ⟨?_, ?_, ?_, ?_⟩
  · intro rel x hex hx
    rw [honly rel x hex hx]
    exact Or.inl ⟨_, ⟨hfile, by decide +kernel, by decide +kernel, by decide +kernel⟩,
      by decide +kernel⟩
  · intro rel d d' hex hd hd' hbytes
    have hrel := honly rel _ hex ((guardTree oneFile).leaf_eq_some.mpr ⟨hd, by simp⟩)
    subst hrel
    cases hfile.symm.trans hd
    have hleft : (smallLeft oneEntry oneFile overwrite).fs.get
        [str "w", str "a"] = some (Store.plainFile (str "B")) := by decide +kernel
    cases hleft.symm.trans hd'
    exact absurd hbytes (by decide)
  · intro rel _ hhidden
    have hopen : (smallLeft oneEntry oneFile overwrite).fs.sealed = [] := by decide +kernel
    refine absurd ?_ hhidden
    intro q hq
    rw [hopen] at hq
    cases hq
  · intro rel hex hout x hx
    exact absurd (hexcluded rel x hex hx) hout

/-- The guarded command overwrites the only file, and the file is given back. -/
theorem run_givesBack_overwritten : GivesBack ⟨[str "w"]⟩ (guardTree oneFile)
    (finalState (smallRun oneEntry oneFile overwrite)).fs := by
  obtain ⟨report, hrun⟩ := exists_of_succeeded
    (r := smallRun oneEntry oneFile overwrite) (by decide +kernel)
  have hsound : Sound (guardCrates oneEntry) ⟨[str "w"]⟩
      (Machine.start (guardTree oneFile)).fs :=
    ⟨Store.Real.of_keys (by decide +kernel) (by decide +kernel),
      Addressed.of_keys _ _ (by decide +kernel)⟩
  have hphases : Phases (guardCrates oneEntry) _ _ (command overwrite) _ _ _ _
      (smallLeft oneEntry oneFile overwrite) _ _ _ :=
    phases_small (by decide +kernel) (by decide +kernel) (by decide +kernel)
  refine (run_givesBack_iff ?_ (fun _ _ => rfl) hsound hrun hphases rfl
    (smallLeft_frame overwrite_frame) (Revert.plainNames_of_keys (by decide +kernel)).leaves
    (Revert.plainNames_of_keys (by decide +kernel)).leaves (by decide +kernel)
    (by decide +kernel)).mpr recoverable_overwritten
  intro data
  by_cases hd : data = []
  · simp [guardCrates, smallCrates, hd]
  · simp [guardCrates, smallCrates, hd]

/-- Guarded runs that revert give back the worktree, on a sound fabric that the
command leaves alone. -/
def RestoresPreState (X : Crates) (st : Store) : Prop :=
  ∀ (argv : List Bytes) (child : Child) (policy : RevertPolicy) (fullDrift : Bool)
    (m m₁ m₂ before left m' : Machine) (mf : Manifest) (snap : Hash) (status : ExitStatus)
    (report : GuardReport), Sound X st m.fs →
    run X st argv policy fullDrift child m = .ok report m' →
    Phases X st argv child m m₁ m₂ before left mf snap status →
    shouldRevert policy status = true →
    (∀ q, st.fabricDir <+: q → left.fs.get q = before.fs.get q) →
    GivesBack st m.fs m'.fs

/-- A worktree with an ignored file. -/
def ignoredFile : List (Path × Node) :=
  [([str "w", str ".fabricignore"], Store.plainFile (str "env")),
   ([str "w", str "env"], Store.plainFile (str "K"))]

def ignoreEntry : List FileEntry := [smallEntry (str ".fabricignore") (str "env")]

/-- The guarded command does nothing, and the ignored file is gone. -/
theorem run_loses_ignored :
    ¬ RestoresPreState (guardCrates ignoreEntry) ⟨[str "w"]⟩ := by
  intro h
  obtain ⟨report, hrun⟩ := exists_of_succeeded
    (r := smallRun ignoreEntry ignoredFile id)
    (by decide +kernel)
  have hsound : Sound (guardCrates ignoreEntry) ⟨[str "w"]⟩
      (Machine.start (guardTree ignoredFile)).fs :=
    ⟨Store.Real.of_keys (by decide +kernel) (by decide +kernel),
      Addressed.of_keys _ _ (by decide +kernel)⟩
  have hphases : Phases (guardCrates ignoreEntry) _ _ (command id) _ _ _ _
      (smallLeft ignoreEntry ignoredFile id) _ _ _ :=
    phases_small (by decide +kernel) (by decide +kernel) (by decide +kernel)
  have hgives := h _ _ _ _ _ _ _ _ _ _ _ _ _ _ hsound hrun hphases rfl
    (smallLeft_frame fun _ _ _ => rfl)
  have hfile : (guardTree ignoredFile).leaf ([str "w"] ++ [str "env"]) =
      some (Store.plainFile (str "K")) := by decide +kernel
  obtain ⟨x, hx, _⟩ := hgives.back [str "env"] _ (by decide) hfile
  have hnone : (finalState (smallRun ignoreEntry ignoredFile
      id)).fs.leaf ([str "w"] ++ [str "env"]) = none := by decide +kernel
  rw [hnone] at hx
  cases hx

end Guard

end Respawn
