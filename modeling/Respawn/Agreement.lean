import Mathlib.Data.List.Sort
import Respawn.Guarded
import Respawn.Surgical

/-!
# Drift and snapshots see the same tree

`detect` and `diff_manifests` both report the differences between two maps from
paths to contents, each from a walk of its own.  The first part is about such
differences in general.  Then `detect_differences` says which map the walk of
`detect` is about, the one of the files in sight, and `diffManifests_differences`
which one a manifest is.

The maps are one but for tombstones, of which only the snapshot knows:
`detect_eq_diff_iff`.
-/

namespace Respawn

open ByteStr FileTree StateLogic

/-! ## Sorted enumerations -/

section Enumeration

variable {α : Type*} [LE α]

/-- The list has exactly what satisfies `P`, once and in order. -/
structure Enumerates (l : List α) (P : α → Prop) : Prop where
  sorted : l.Pairwise (· ≤ ·)
  nodup : l.Nodup
  mem : ∀ a, a ∈ l ↔ P a

variable {l l' : List α} {P : α → Prop}

theorem Enumerates.congr {Q : α → Prop} (h : Enumerates l P) (hPQ : ∀ a, P a ↔ Q a) :
    Enumerates l Q :=
  ⟨h.sorted, h.nodup, fun a => (h.mem a).trans (hPQ a)⟩

/-- Nothing is enumerated where nothing is to be. -/
theorem Enumerates.eq_nil_iff (h : Enumerates l P) : l = [] ↔ ∀ a, ¬ P a := by
  rw [List.eq_nil_iff_forall_not_mem]
  constructor
  · intro hnone a ha
    exact hnone a ((h.mem a).mpr ha)
  · intro hnone a ha
    exact hnone a ((h.mem a).mp ha)

/-- Sorting enumerates. -/
theorem enumerates_insertionSort [Std.Total (α := α) (· ≤ ·)] [IsTrans α (· ≤ ·)] [DecidableLE α]
    (hnodup : l.Nodup) (hmem : ∀ a, a ∈ l ↔ P a) : Enumerates (l.insertionSort (· ≤ ·)) P := by
  refine ⟨List.pairwise_insertionSort _ l, (List.perm_insertionSort _ l).nodup_iff.mpr hnodup, ?_⟩
  intro a
  rw [List.mem_insertionSort]
  exact hmem a

/-- There is one enumeration. -/
theorem Enumerates.unique [Std.Antisymm (α := α) (· ≤ ·)] (h : Enumerates l P)
    (h' : Enumerates l' P) : l = l' := by
  apply List.Perm.eq_of_pairwise' h.sorted h'.sorted
  rw [List.perm_ext_iff_of_nodup h.nodup h'.nodup]
  intro a
  rw [h.mem, h'.mem]

end Enumeration

/-! ## Differences between maps -/

section Differences

variable {κ γ : Type*}

/-- The key is there now and was not. -/
def AddedAt (now : κ → γ → Prop) (was : κ → Option γ) (k : κ) : Prop :=
  (∃ c, now k c) ∧ was k = none

/-- The key has another content now. -/
def ModifiedAt (now : κ → γ → Prop) (was : κ → Option γ) (k : κ) : Prop :=
  ∃ c c', now k c ∧ was k = some c' ∧ c ≠ c'

/-- The key was there and is not now. -/
def DeletedAt (now : κ → γ → Prop) (was : κ → Option γ) (k : κ) : Prop :=
  (¬ ∃ c, now k c) ∧ was k ≠ none

/-- Three lists: the keys added, modified and deleted. -/
structure Differences [LE κ] (now : κ → γ → Prop) (was : κ → Option γ)
    (lists : List κ × List κ × List κ) : Prop where
  added : Enumerates lists.1 (AddedAt now was)
  modified : Enumerates lists.2.1 (ModifiedAt now was)
  deleted : Enumerates lists.2.2 (DeletedAt now was)

variable [LE κ] {now now' : κ → γ → Prop} {was : κ → Option γ}
  {lists lists' : List κ × List κ × List κ}

theorem Differences.congr (h : Differences now was lists) (heq : ∀ k c, now k c ↔ now' k c) :
    Differences now' was lists := by
  have hsame : now = now' := funext fun k => funext fun c => propext (heq k c)
  exact hsame ▸ h

/-- The maps decide the lists. -/
theorem Differences.unique [Std.Antisymm (α := κ) (· ≤ ·)] (h : Differences now was lists)
    (h' : Differences now was lists') : lists = lists' :=
  Prod.ext (h.added.unique h'.added)
    (Prod.ext (h.modified.unique h'.modified) (h.deleted.unique h'.deleted))

/-- The lists decide which keys are there now. -/
theorem Differences.present_iff (h : Differences now was lists) (h' : Differences now' was lists)
    (k : κ) : (∃ c, now k c) ↔ ∃ c, now' k c := by
  cases hwas : was k with
  | none =>
      have hadded := (h.added.mem k).symm.trans (h'.added.mem k)
      simpa [AddedAt, hwas] using hadded
  | some c =>
      have hdeleted := (h.deleted.mem k).symm.trans (h'.deleted.mem k)
      simpa only [DeletedAt, hwas, ne_eq, reduceCtorEq, not_false_eq_true, and_true,
        not_iff_not] using hdeleted

/-- No difference means that the maps are the same. -/
theorem Differences.none_iff (h : Differences now was lists) :
    lists = ([], [], []) ↔ ∀ k c, now k c ↔ was k = some c := by
  have hlists : lists = ([], [], []) ↔ lists.1 = [] ∧ lists.2.1 = [] ∧ lists.2.2 = [] := by
    simp [Prod.ext_iff]
  rw [hlists, h.added.eq_nil_iff, h.modified.eq_nil_iff, h.deleted.eq_nil_iff]
  constructor
  · intro hnone k c
    obtain ⟨hadded, hmodified, hdeleted⟩ := hnone
    constructor
    · intro hnow
      cases hwas : was k with
      | none => exact absurd ⟨⟨c, hnow⟩, hwas⟩ (hadded k)
      | some c' =>
          by_contra hne
          exact hmodified k ⟨c, c', hnow, hwas, fun heq => hne (congrArg some heq.symm)⟩
    · intro hwas
      by_contra hnot
      by_cases hnow : ∃ c', now k c'
      · obtain ⟨c', hc'⟩ := hnow
        exact hmodified k ⟨c', c, hc', hwas, fun heq => hnot (heq ▸ hc')⟩
      · exact hdeleted k ⟨hnow, by simp [hwas]⟩
  · intro hsame
    refine ⟨?_, ?_, ?_⟩
    · intro k hk
      obtain ⟨⟨c, hc⟩, hwas⟩ := hk
      rw [(hsame k c).mp hc] at hwas
      cases hwas
    · intro k hk
      obtain ⟨c, c', hc, hwas, hne⟩ := hk
      rw [(hsame k c).mp hc] at hwas
      exact hne (Option.some.inj hwas)
    · intro k hk
      obtain ⟨hno, hwas⟩ := hk
      obtain ⟨c, hc⟩ := Option.ne_none_iff_exists'.mp hwas
      exact hno ⟨c, (hsame k c).mpr hc⟩

end Differences

variable (X : Crates) (st : Store)

namespace Snapshot

/-- Files in `a` that differ from `b`: added, modified, deleted. -/
def diffManifests (a b : Manifest) : List Bytes × List Bytes × List Bytes :=
  let amap := Revert.keys a.files
  let bmap := Revert.keys b.files
  let added := amap.filter fun p => entryAt b.files p = none
  let modified := amap.filter fun p => match entryAt a.files p, entryAt b.files p with
    | some fa, some fb => decide (fb.content ≠ fa.content)
    | _, _ => false
  let deleted := bmap.filter fun p => entryAt a.files p = none
  (added.insertionSort (· ≤ ·), modified.insertionSort (· ≤ ·), deleted.insertionSort (· ≤ ·))

/-- **A diff of manifests** is about the contents at their paths. -/
theorem diffManifests_differences (a b : Manifest) :
    Differences (fun p c => Revert.stateOf a.files p = some c) (Revert.stateOf b.files)
      (diffManifests a b) := by
  have hstate : ∀ files p, Revert.stateOf files p = none ↔ entryAt files p = none := by
    intro files p
    exact Option.map_eq_none_iff
  have hthere : ∀ files p, (∃ c, Revert.stateOf files p = some c) ↔ entryAt files p ≠ none := by
    intro files p
    rw [← Option.ne_none_iff_exists', ne_eq, hstate]
  have hnodup : ∀ files : List FileEntry, (Revert.keys files).Nodup := fun _ => List.nodup_dedup _
  refine ⟨?_, ?_, ?_⟩
  · apply enumerates_insertionSort ((hnodup _).filter _)
    intro p
    rw [List.mem_filter, Revert.mem_keys, AddedAt, hthere, hstate, decide_eq_true_eq]
  · apply enumerates_insertionSort ((hnodup _).filter _)
    intro p
    rw [List.mem_filter, Revert.mem_keys, ModifiedAt]
    cases ha : entryAt a.files p with
    | none => simp [Revert.stateOf, ha]
    | some fa => cases hb : entryAt b.files p with
      | none => simp [Revert.stateOf, ha, hb]
      | some fb => simp [Revert.stateOf, ha, hb, ne_comm]
  · apply enumerates_insertionSort ((hnodup _).filter _)
    intro p
    have hwas : Revert.stateOf b.files p ≠ none ↔ entryAt b.files p ≠ none :=
      not_congr (hstate b.files p)
    rw [List.mem_filter, Revert.mem_keys, DeletedAt, hthere, decide_eq_true_eq, hwas]
    exact ⟨fun h => ⟨not_not.mpr h.2, h.1⟩, fun h => ⟨h.2, not_not.mp h.1⟩⟩

end Snapshot

/-! ## What the walks see -/

/-- The file `d` at `rel` is neither excluded nor ignored. -/
structure InSight (root : Path) (fs : Fs) (rel : Path) (d : FileData) : Prop where
  file : fs.get (root ++ rel) = some (.file d)
  included : Revert.excluded rel = false
  kept : Snapshot.ignored (Snapshot.ignorePatterns root fs) (relStr rel) = false
  listed : fs.Listed root rel

/-- A file in sight has this path and content. -/
def Shows (X : Crates) (root : Path) (fs : Fs) (p : Bytes) (c : Hash) : Prop :=
  ∃ rel d, InSight root fs rel d ∧ relStr rel = p ∧ X.blake3 d.bytes = c

/-- A file in sight has a purged path or content. -/
def PurgedInSight (X : Crates) (st : Store) (fs : Fs) : Prop :=
  ∃ rel d, InSight st.root fs rel d ∧ isPurged X st (relStr rel) (X.blake3 d.bytes) fs = .ok true

namespace Drift

/-- What a full check finds of a path with this content. -/
def verdict (m : Manifest) (p : Bytes) (c : Hash) : Finding :=
  match Revert.stateOf m.files p with
  | none => .added
  | some c' => if c ≠ c' then .modified else .touched

/-- What a full check finds at a place. -/
def found (X : Crates) (root : Path) (m : Manifest) (fs : Fs) (rel : Path) :
    Option (Bytes × Finding) :=
  match fs.get (root ++ rel) with
  | some (.file d) =>
      if excluded rel then none
      else if Snapshot.ignored (Snapshot.ignorePatterns root fs) (relStr rel) then none
      else some (relStr rel, verdict m (relStr rel) (X.blake3 d.bytes))
  | _ => none

variable {X st} {fs : Fs} {m : Manifest} {root rel : Path}

/-- A full check reads every file that it looks at. -/
theorem inspect_eq_found : inspect X root m (Snapshot.ignorePatterns root fs) true fs rel =
    .ok (found X root m fs rel) := by
  unfold inspect found
  cases hx : fs.get (root ++ rel) with
  | none => rfl
  | some x => cases x with
    | dir => rfl
    | symlink t => rfl
    | file d =>
        simp only
        by_cases hex : excluded rel = true
        · rw [if_pos hex, if_pos hex]
        · rw [if_neg hex, if_neg hex]
          by_cases hig : Snapshot.ignored (Snapshot.ignorePatterns root fs) (relStr rel) = true
          · rw [if_pos hig, if_pos hig]
          · rw [if_neg hig, if_neg hig]
            unfold compare verdict Revert.stateOf
            cases entryAt m.files (relStr rel) with
            | none => rfl
            | some fe => simp [Fs.read_of_get hx]

/-- What is found at a listed path is the file in sight there. -/
theorem found_eq_some {f : Bytes × Finding} (hlisted : fs.Listed root rel) :
    found X root m fs rel = some f ↔
    ∃ d, InSight root fs rel d ∧ f = (relStr rel, verdict m (relStr rel) (X.blake3 d.bytes)) := by
  unfold found
  constructor
  · intro h
    split at h
    · rename_i d hd
      split at h
      · cases h
      · rename_i hex
        split at h
        · cases h
        · rename_i hig
          exact ⟨d, ⟨hd, Bool.eq_false_iff.mpr hex, Bool.eq_false_iff.mpr hig, hlisted⟩,
            (Option.some.inj h).symm⟩
    · cases h
  · intro h
    obtain ⟨d, hsight, rfl⟩ := h
    have hex : ¬ excluded rel = true := Bool.eq_false_iff.mp hsight.included
    rw [hsight.file]
    simp only
    rw [if_neg hex, if_neg (Bool.eq_false_iff.mp hsight.kept)]

/-- A finding is about a file. -/
theorem file_of_found {f : Bytes × Finding} (h : found X root m fs rel = some f) :
    ∃ d, fs.get (root ++ rel) = some (.file d) ∧ excluded rel = false ∧
      f = (relStr rel, verdict m (relStr rel) (X.blake3 d.bytes)) := by
  unfold found at h
  split at h
  · rename_i d hd
    split at h
    · cases h
    · rename_i hex
      split at h
      · cases h
      · exact ⟨d, hd, Bool.eq_false_iff.mpr hex, (Option.some.inj h).symm⟩
  · cases h

/-- The findings of the walk. -/
theorem mem_findings {f : Bytes × Finding} :
    f ∈ (fs.walk root).filterMap (found X root m fs) ↔
      ∃ c, Shows X root fs f.1 c ∧ f.2 = verdict m f.1 c := by
  rw [List.mem_filterMap]
  constructor
  · intro h
    obtain ⟨rel, hwalk, hfound⟩ := h
    obtain ⟨d, hsight, rfl⟩ := (found_eq_some (Fs.mem_walk.mp hwalk).2).mp hfound
    exact ⟨_, ⟨rel, d, hsight, rfl, rfl⟩, rfl⟩
  · intro h
    obtain ⟨c, ⟨rel, d, hsight, hp, rfl⟩, hverdict⟩ := h
    refine ⟨rel, Fs.mem_walk.mpr ⟨⟨_, hsight.file⟩, hsight.listed⟩,
      (found_eq_some hsight.listed).mpr ⟨d, hsight, ?_⟩⟩
    rw [hp, ← hverdict]

/-- A walk comes to a place once. -/
theorem nodup_walk (fs : Fs) (root : Path) : (fs.walk root).Nodup := by
  unfold Fs.walk
  rw [(List.perm_insertionSort _ _).nodup_iff]
  apply List.Nodup.filter
  apply List.Nodup.map_on _ (fs.nodes.nodupKeys.filter _)
  intro k hk k' hk' heq
  obtain ⟨rest, rfl⟩ : root <+: k := by simpa using (List.mem_filter.mp hk).2
  obtain ⟨rest', rfl⟩ : root <+: k' := by simpa using (List.mem_filter.mp hk').2
  simpa using heq

/-- Files of plain names are found under different paths. -/
theorem nodup_findings (hroot : fs.get st.root = some .dir)
    (hplain : Revert.PlainLeaves st.root fs) :
    (((fs.walk st.root).filterMap (found X st.root m fs)).map Prod.fst).Nodup := by
  rw [List.map_filterMap]
  have hsighted : ∀ {rel p}, p ∈ (found X st.root m fs rel).map Prod.fst →
      relStr rel = p ∧ excluded rel = false ∧ ∃ d, fs.get (st.root ++ rel) = some (.file d) := by
    intro rel p hp
    obtain ⟨f, hf, rfl⟩ := Option.map_eq_some_iff.mp (Option.mem_def.mp hp)
    obtain ⟨d, hd, hex, rfl⟩ := file_of_found hf
    exact ⟨rfl, hex, d, hd⟩
  refine (nodup_walk fs st.root).filterMap ?_
  intro rel rel' p hp hp'
  obtain ⟨hpath, hex, d, hd⟩ := hsighted hp
  obtain ⟨hpath', hex', d', hd'⟩ := hsighted hp'
  exact Revert.relStr_injective hroot hroot hplain hplain hex hex' hd hd' (by simp) (by simp)
    (hpath.trans hpath'.symm)

/-- **A full drift check** is about the contents of the files in sight. -/
theorem detect_differences (hroot : fs.get st.root = some .dir)
    (hplain : Revert.PlainLeaves st.root fs) (m : Manifest) :
    ∃ report, detect X st.root m true fs = .ok report ∧
      Differences (Shows X st.root fs) (Revert.stateOf m.files)
        (report.added, report.modified, report.deleted) := by
  have hscan : scan (fs.walk st.root)
      (inspect X st.root m (Snapshot.ignorePatterns st.root fs) true fs) =
        .ok ((fs.walk st.root).filterMap (found X st.root m fs)) :=
    scan_eq_ok fun rel _ => inspect_eq_found
  have hnodup := nodup_findings (X := X) (m := m) hroot hplain
  have hwith : ∀ finding (P : Bytes → Prop),
      (∀ p, (∃ c, Shows X st.root fs p c ∧ verdict m p c = finding) ↔ P p) →
      Enumerates (pathsWith finding ((fs.walk st.root).filterMap (found X st.root m fs))) P := by
    intro finding P hP
    apply enumerates_insertionSort (hnodup.sublist (List.filter_sublist.map _))
    intro p
    rw [← hP, List.mem_map]
    constructor
    · intro h
      obtain ⟨f, hf, rfl⟩ := h
      obtain ⟨hmem, hfinding⟩ := List.mem_filter.mp hf
      obtain ⟨c, hshows, hverdict⟩ := mem_findings.mp hmem
      exact ⟨c, hshows, hverdict.symm.trans (of_decide_eq_true hfinding)⟩
    · intro h
      obtain ⟨c, hshows, hverdict⟩ := h
      exact ⟨(p, finding), List.mem_filter.mpr
        ⟨mem_findings.mpr ⟨c, hshows, hverdict.symm⟩, by simp⟩, rfl⟩
  have hfound : ∀ p, p ∈ ((fs.walk st.root).filterMap (found X st.root m fs)).map Prod.fst ↔
      ∃ c, Shows X st.root fs p c := by
    intro p
    rw [List.mem_map]
    constructor
    · intro h
      obtain ⟨f, hf, rfl⟩ := h
      obtain ⟨c, hshows, _⟩ := mem_findings.mp hf
      exact ⟨c, hshows⟩
    · intro h
      obtain ⟨c, hshows⟩ := h
      exact ⟨(p, verdict m p c), mem_findings.mpr ⟨c, hshows, rfl⟩, rfl⟩
  unfold detect
  rw [hscan]
  refine ⟨_, rfl, ?_, ?_, ?_⟩
  · apply hwith
    intro p
    unfold verdict AddedAt
    cases hstate : Revert.stateOf m.files p with
    | none => simp
    | some c' =>
        simp only [reduceCtorEq, and_false, iff_false, not_exists, not_and]
        intro c _ hadded
        split at hadded
        · cases hadded
        · cases hadded
  · apply hwith
    intro p
    unfold verdict ModifiedAt
    cases hstate : Revert.stateOf m.files p with
    | none => simp
    | some c' => simp
  · apply enumerates_insertionSort ((List.nodup_dedup _).filter _)
    intro p
    rw [List.mem_filter, decide_eq_true_eq, hfound, List.mem_dedup, DeletedAt]
    have hkey : p ∈ m.files.map FileEntry.path ↔ Revert.stateOf m.files p ≠ none := by
      rw [ne_eq, Revert.stateOf, Option.map_eq_none_iff, ← not_mem_paths_iff, not_not]
    rw [hkey, and_comm]

end Drift

/-! ## What a snapshot lists -/

namespace Snapshot

variable {X st} {fs fs' : Fs} {message : Bytes} {actor : Option Bytes} {s s₁ : Machine}
  {m₂ : Manifest}

/-- The contents of a manifest are those of the tracked files. -/
theorem stateOf_of_lists
    (hcdc : ∀ data, (X.fastcdc CDC_MIN CDC_AVG CDC_MAX data).flatten = data)
    (hlists : Revert.Lists X st m₂ fs) (hroot : fs.get st.root = some .dir)
    (hplain : Revert.PlainLeaves st.root fs) (p : Bytes) (c : Hash) :
    Revert.stateOf m₂.files p = some c ↔
      ∃ rel d, Revert.Tracked X st fs rel d ∧ relStr rel = p ∧ X.blake3 d.bytes = c := by
  have hcontent : ∀ rel d, (fileEntry X rel d).content = X.blake3 d.bytes := by
    intro rel d
    simp only [fileEntry, Revert.flatten_chunksOf hcdc]
  constructor
  · intro h
    obtain ⟨fe, hentry, hc⟩ := Option.map_eq_some_iff.mp h
    obtain ⟨hfe, hp⟩ := mem_of_entryAt hentry
    obtain ⟨rel, d, ht, rfl⟩ := (hlists.mem fe).mp hfe
    exact ⟨rel, d, ht, hp, (hcontent rel d).symm.trans hc⟩
  · intro h
    obtain ⟨rel, d, ht, rfl, rfl⟩ := h
    rw [Revert.stateOf, hlists.entryAt_eq hroot hplain ht, Option.map_some, hcontent]

/-- A tracked file is a file in sight that is not purged. -/
theorem tracked_iff_inSight {rel : Path} {d : FileData} : Revert.Tracked X st fs rel d ↔
    InSight st.root fs rel d ∧ isPurged X st (relStr rel) (X.blake3 d.bytes) fs = .ok false :=
  ⟨fun h => ⟨⟨h.file, h.included, h.kept, h.listed⟩, h.unpurged⟩,
    fun h => ⟨⟨h.1.file, h.1.included, h.1.kept, h.2⟩, h.1.listed⟩⟩

/-- The tree shows what its snapshot lists exactly when nothing purged is in sight. -/
theorem shows_iff_listed
    (hcdc : ∀ data, (X.fastcdc CDC_MIN CDC_AVG CDC_MAX data).flatten = data)
    (hreal : st.Real s.fs) (hplain : Revert.PlainLeaves st.root s.fs)
    (hbuild : buildManifest X st st.root message actor s = .ok m₂ s₁) :
    ((∀ p, (∃ c, Shows X st.root s.fs p c) ↔ ∃ c, Revert.stateOf m₂.files p = some c) ↔
        ¬ PurgedInSight X st s.fs) ∧
      (¬ PurgedInSight X st s.fs →
        ∀ p c, Shows X st.root s.fs p c ↔ Revert.stateOf m₂.files p = some c) := by
  have hroot : s.fs.get st.root = some .dir :=
    Fs.dir_of_prefix hreal.dir (List.prefix_append _ _)
  have hlists := Revert.lists_of_build hcdc hreal hplain hbuild
  have hstate := stateOf_of_lists hcdc hlists hroot hplain
  have hsame : ¬ PurgedInSight X st s.fs →
      ∀ p c, Shows X st.root s.fs p c ↔ Revert.stateOf m₂.files p = some c := by
    intro hnone p c
    rw [hstate]
    constructor
    · intro h
      obtain ⟨rel, d, hsight, hp, hc⟩ := h
      refine ⟨rel, d, tracked_iff_inSight.mpr ⟨hsight, ?_⟩, hp, hc⟩
      have hafter : After (buildManifest X st st.root message actor s) _ _ :=
        buildManifest_after hreal
      rw [hbuild] at hafter
      obtain ⟨tombs, htombs, _⟩ := hafter
      cases hpurged : isPurged X st (relStr rel) (X.blake3 d.bytes) s.fs with
      | error e =>
          unfold isPurged at hpurged
          rw [htombs] at hpurged
          cases hpurged
      | ok b => cases b with
        | false => rfl
        | true => exact absurd ⟨rel, d, hsight, hpurged⟩ hnone
    · intro h
      obtain ⟨rel, d, ht, hp, hc⟩ := h
      exact ⟨rel, d, (tracked_iff_inSight.mp ht).1, hp, hc⟩
  refine ⟨?_, hsame⟩
  constructor
  · intro hkeys hpurged
    obtain ⟨rel, d, hsight, htrue⟩ := hpurged
    obtain ⟨c, hc⟩ := (hkeys (relStr rel)).mp ⟨_, rel, d, hsight, rfl, rfl⟩
    obtain ⟨rel', d', ht, hpath, _⟩ := (hstate _ _).mp hc
    have hrel : rel' = rel := Revert.relStr_injective hroot hroot hplain hplain ht.included
      hsight.included ht.file hsight.file (by simp) (by simp) hpath
    subst hrel
    have hd : d' = d := by
      have heq := ht.file.symm.trans hsight.file
      simpa using heq
    subst hd
    rw [ht.unpurged] at htrue
    cases htrue
  · intro hnone p
    exact exists_congr fun c => hsame hnone p c

/-- What is in sight does not depend on the fabric. -/
theorem inSight_congr {rel : Path} {d : FileData} (h : InSight st.root fs rel d)
    (hreal : st.Real fs) (hreal' : st.Real fs')
    (hout : ∀ q, ¬ st.fabricDir <+: q → fs'.get q = fs.get q) (hsealed : fs'.sealed = fs.sealed)
    (hlink : ∀ t, fs.get (st.root ++ [str ".fabricignore"]) ≠ some (.symlink t)) :
    InSight st.root fs' rel d := by
  refine ⟨?_, h.included, ?_, ?_⟩
  · rw [hout _ (Revert.not_fabric_of_not_excluded h.included)]
    exact h.file
  · rw [Guard.ignorePatterns_congr hreal hreal' hout hlink]
    exact h.kept
  · exact (Fs.listed_congr hsealed _ _).mpr h.listed

/-- **Drift and snapshot see the same tree, purged files apart.**  On a worktree
of plain names whose `.fabricignore` is no link: a full drift check from any
manifest `m` reports the diff from `m` of the manifest that a snapshot would
store, and reports nothing from that manifest once the snapshot was taken, if
and only if no file in sight has a purged path or content. -/
theorem detect_eq_diff_iff (X : Crates) (st : Store)
    (hcdc : ∀ data, (X.fastcdc CDC_MIN CDC_AVG CDC_MAX data).flatten = data)
    (hreal : st.Real s.fs) (hplain : Revert.PlainLeaves st.root s.fs)
    (hlink : ∀ t, s.fs.get (st.root ++ [str ".fabricignore"]) ≠ some (.symlink t))
    (hbuild : buildManifest X st st.root message actor s = .ok m₂ s₁) :
    (∀ m : Manifest, ∃ report, Drift.detect X st.root m true s.fs = .ok report ∧
      ((report.added, report.modified, report.deleted) = diffManifests m₂ m ↔
        ¬ PurgedInSight X st s.fs)) ∧
    ∀ id s', createFromActor X st st.root message actor s = .ok id s' →
      ∃ report, Drift.detect X st.root m₂ true s'.fs = .ok report ∧
        ((report.added, report.modified, report.deleted) = ([], [], []) ↔
          ¬ PurgedInSight X st s.fs) := by
  have hroot : s.fs.get st.root = some .dir :=
    Fs.dir_of_prefix hreal.dir (List.prefix_append _ _)
  obtain ⟨hkeys, hsame⟩ := shows_iff_listed hcdc hreal hplain hbuild
  constructor
  · intro m
    obtain ⟨report, hdetect, hdiffs⟩ := Drift.detect_differences (X := X) hroot hplain m
    refine ⟨report, hdetect, ?_⟩
    have hdiffs' := diffManifests_differences m₂ m
    constructor
    · intro heq
      rw [heq] at hdiffs
      exact hkeys.mp fun p => hdiffs.present_iff hdiffs' p
    · intro hnone
      exact hdiffs.unique (hdiffs'.congr fun p c => (hsame hnone p c).symm)
  · intro id s' hcreate
    have htouched := (createFromActor_touching message actor s hreal).ok hcreate
    have hout : ∀ q, ¬ st.fabricDir <+: q → s'.fs.get q = s.fs.get q := fun q hq =>
      htouched.frame q fun hw => hq hw.fabric
    have hsealed : s'.fs.sealed = s.fs.sealed :=
      (createFromActor_sealed message actor s rfl).ok hcreate
    have hplain' : Revert.PlainLeaves st.root s'.fs := by
      intro rel x hex hx
      apply hplain rel x hex
      unfold Fs.leaf at hx ⊢
      rw [← hout _ (Revert.not_fabric_of_not_excluded hex)]
      exact hx
    have hlink' : ∀ t, s'.fs.get (st.root ++ [str ".fabricignore"]) ≠ some (.symlink t) := by
      intro t
      rw [hout _ Guard.ignorePath_outside]
      exact hlink t
    have hshows : ∀ p c, Shows X st.root s'.fs p c ↔ Shows X st.root s.fs p c := by
      intro p c
      constructor
      · intro h
        obtain ⟨rel, d, hsight, hpc⟩ := h
        exact ⟨rel, d, inSight_congr hsight htouched.real hreal (fun q hq => (hout q hq).symm)
          hsealed.symm hlink', hpc⟩
      · intro h
        obtain ⟨rel, d, hsight, hpc⟩ := h
        exact ⟨rel, d, inSight_congr hsight hreal htouched.real hout hsealed hlink, hpc⟩
    obtain ⟨report, hdetect, hdiffs⟩ := Drift.detect_differences (X := X)
      (Fs.dir_of_prefix htouched.real.dir (List.prefix_append _ _)) hplain' m₂
    refine ⟨report, hdetect, ?_⟩
    rw [(hdiffs.congr hshows).none_iff]
    constructor
    · intro hall
      exact hkeys.mp fun p => exists_congr fun c => hall p c
    · intro hnone
      exact hsame hnone

/-- Drift and snapshots see the same tree, purged or not. -/
def AlwaysAgrees (X : Crates) (st : Store) : Prop :=
  ∀ (message : Bytes) (actor : Option Bytes) (s s₁ : Machine) (m m₂ : Manifest),
    st.Real s.fs → (∀ rel t, s.fs.get (st.root ++ rel) ≠ some (.symlink t)) →
    Revert.PlainNames st.root s.fs →
    buildManifest X st st.root message actor s = .ok m₂ s₁ →
    ∃ report, Drift.detect X st.root m true s.fs = .ok report ∧
      (report.added, report.modified, report.deleted) = diffManifests m₂ m

/-- The tombstone of a file `a` with the bytes `A`. -/
def buriedTomb : Tombstone :=
  { path := str "a", content := hashHex (padHash (str "A")), purgeId := [], ts := 0 }

def buriedCrates : Crates := smallCrates [] [] [(str "t", buriedTomb)]

/-- A worktree with a file of this name and the bytes `A`, which are purged. -/
def buriedTree (name : Name) : Fs :=
  Fs.build (Store.fabricNodes ⟨[str "w"]⟩ [] ++
    [(tombstonePath ⟨[str "w"]⟩, Store.plainFile (str "t\n")),
     ([str "w", name], Store.plainFile (str "A"))])

/-- **A purged file made again is drift and in no snapshot.** -/
theorem detect_sees_purged : ¬ AlwaysAgrees buriedCrates ⟨[str "w"]⟩ := by
  intro halways
  have hbuild := eq_ok_of_yields (a := smallManifest none none [])
    (r := buildManifest buriedCrates ⟨[str "w"]⟩ [str "w"] [] none
      (Machine.start (buriedTree (str "a")))) (by decide +kernel)
  obtain ⟨report, hdetect, hsame⟩ := halways [] none _ _ (smallManifest none none []) _
    (Store.Real.of_keys (by decide +kernel) (by decide +kernel))
    (fun rel t => Store.noLink_of_keys (by decide +kernel) _ t)
    (Revert.plainNames_of_keys (by decide +kernel)) hbuild
  have hadded : (Drift.detect buriedCrates [str "w"] (smallManifest none none []) true
      (buriedTree (str "a"))).toOption.map Drift.DriftReport.added = some [str "a"] := by
    decide +kernel
  have hlist : report.added = [str "a"] := by
    rw [show Drift.detect buriedCrates [str "w"] (smallManifest none none []) true
      (buriedTree (str "a")) = .ok report from hdetect] at hadded
    exact Option.some.inj hadded
  rw [hlist] at hsame
  have hfirst : [str "a"] = (diffManifests (smallManifest none none [])
    (smallManifest none none [])).1 := congrArg Prod.fst hsame
  exact absurd hfirst (by decide +kernel)

/-- Without tombstones they agree. -/
theorem detect_eq_diff_earlier : ∃ report,
    Drift.detect (smallCrates [] [] []) [str "w"] Revert.emptyManifest true
      (Machine.start Revert.earlierTree).fs = .ok report ∧
    (report.added, report.modified, report.deleted) =
      diffManifests Revert.earlierManifest Revert.emptyManifest := by
  have hbuild := eq_ok_of_yields (a := Revert.earlierManifest)
    (r := buildManifest (smallCrates [] [] []) ⟨[str "w"]⟩ [str "w"] (str "m") none
      (Machine.start Revert.earlierTree)) (by decide +kernel)
  have hreal : Store.Real ⟨[str "w"]⟩ (Machine.start Revert.earlierTree).fs :=
    Store.Real.of_keys (by decide +kernel) (by decide +kernel)
  have hnone : (Machine.start Revert.earlierTree).fs.get [str "w", str ".fabricignore"] = none := by
    decide +kernel
  have hlink : ∀ t, (Machine.start Revert.earlierTree).fs.get
      ([str "w"] ++ [str ".fabricignore"]) ≠ some (.symlink t) := by
    intro t ht
    exact absurd (hnone.symm.trans ht) (by simp)
  obtain ⟨hdiff, _⟩ := detect_eq_diff_iff
    (smallCrates [] [] []) ⟨[str "w"]⟩ (Revert.flatten_small _ _ _) hreal
    (Revert.plainNames_of_keys (by decide +kernel)).leaves hlink hbuild
  obtain ⟨report, hdetect, hiff⟩ := hdiff Revert.emptyManifest
  refine ⟨report, hdetect, hiff.mpr ?_⟩
  have htombs : tombstones (smallCrates [] [] []) ⟨[str "w"]⟩
      (Machine.start Revert.earlierTree).fs = .ok [] := eq_ok_of_toOption (by decide +kernel)
  intro hpurged
  obtain ⟨rel, d, _, htrue⟩ := hpurged
  unfold isPurged at htrue
  rw [htombs] at htrue
  cases htrue

end Snapshot

end Respawn
