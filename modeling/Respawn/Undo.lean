import Respawn.Erasure
import Respawn.Obstacles
import Respawn.Surgical

/-!
# What surgical undo leaves

In terms of HEAD's chain, newest snapshot first: at a path the actor touched
the new manifest has the newest work of anybody else, at any other path it has
HEAD's entry (`stateOf_surgicalManifest`).  From that:

* `surgicalManifest_leaves_nothing` — what stands at a touched path was first
  there in somebody else's snapshot;
* `surgicalManifest_idempotent` — undoing the undone changes nothing;
* `surgicalManifest_undoes_both_iff` — a second undo for another actor can
  bring the first actor's work back, and exactly when it does;
* `surgicalManifest_unpurged_iff` — an undo can bring a purged entry back, and
  exactly when it does not.
-/

namespace Respawn

open ByteStr FileTree StateLogic

variable (X : Crates) (st : Store)

namespace Revert

/-- No path occurs twice. -/
def Distinct (files : List FileEntry) : Prop := (files.map FileEntry.path).Nodup

/-- The oldest snapshot of a chain that has this content at the path. -/
def firstHolder (p : Bytes) (c : Hash) : List Manifest → Option Manifest
  | [] => none
  | m :: older => (firstHolder p c older).or (if stateOf m.files p = some c then some m else none)

/-- The content first appeared at the path in a snapshot of the actor. -/
def FirstBy (actor p : Bytes) (c : Hash) (chain : List Manifest) : Prop :=
  ∃ m, firstHolder p c chain = some m ∧ m.actor = some actor

/-- No entry has a purged path or content. -/
def NonePurged (tombs : List Tombstone) (files : List FileEntry) : Prop :=
  ∀ fe ∈ files, ∀ t ∈ tombs, t.path ≠ fe.path ∧ t.content ≠ hashHex fe.content

variable {X st} {actor p : Bytes} {c : Hash} {fs : Fs} {chain older : List Manifest}
  {m vm : Manifest} {paths : List Bytes} {files : List FileEntry}

/-! ## The manifest in terms of the chain -/

/-- Of distinct paths each has the state its entry says. -/
theorem entryAt_of_distinct (h : Distinct files) {fe : FileEntry} (hfe : fe ∈ files) :
    entryAt files fe.path = some fe := by
  apply entryAt_eq_some hfe rfl
  intro f hf hpath
  exact List.inj_on_of_nodup_map h hf hfe hpath

theorem stateOf_of_distinct (h : Distinct files) {fe : FileEntry} (hfe : fe ∈ files) :
    stateOf files fe.path = some fe.content := by
  rw [stateOf, entryAt_of_distinct h hfe, Option.map_some]

/-- The manifest that is returned, and the paths. -/
theorem eq_of_surgicalManifest (hchain : headManifests X st fs = .ok chain)
    (h : surgicalManifest X st actor fs = .ok (vm, paths)) :
    ∃ head older, chain = head :: older ∧ vm = undoneManifest actor head older ∧
      paths = (undoFold actor chain).touched.insertionSort (· ≤ ·) ∧
      (undoFold actor chain).touched ≠ [] := by
  unfold surgicalManifest at h
  rw [hchain] at h
  cases chain with
  | nil => cases h
  | cons head older =>
      by_cases hnone : (undoFold actor (head :: older)).touched = []
      · simp only [if_pos hnone] at h
        cases h
      · simp only [if_neg hnone] at h
        cases h
        exact ⟨head, older, rfl, rfl, rfl, hnone⟩

/-- The paths that are returned are those the actor touched. -/
theorem mem_paths_iff (hchain : headManifests X st fs = .ok chain)
    (h : surgicalManifest X st actor fs = .ok (vm, paths)) :
    p ∈ paths ↔ touchedBy actor p chain = true := by
  obtain ⟨head, older, _, _, hpaths, _⟩ := eq_of_surgicalManifest hchain h
  rw [hpaths, List.mem_insertionSort]
  exact mem_touched_undoFold

/-- A path that was not touched keeps HEAD's entries. -/
theorem mem_undoneFiles_untouched {head : List FileEntry} (hp : touchedBy actor p chain = false)
    {fe : FileEntry} (hpath : fe.path = p) :
    fe ∈ undoneFiles (undoFold actor chain) head ↔ fe ∈ head := by
  have hnot : p ∉ (undoFold actor chain).touched := by
    rw [mem_touched_undoFold, hp]
    decide
  have hresolved : ∀ q e, (undoFold actor chain).resolve q = some e → e.path = q := by
    intro q e he
    rw [resolve_undoFold] at he
    exact (undoFold_tracks actor q chain).path e he
  unfold undoneFiles
  rw [List.mem_insertionSort, List.mem_append, List.mem_filterMap, List.mem_filterMap]
  constructor
  · rintro (⟨f, hf, hkept⟩ | ⟨q, hq, hrestored⟩)
    · by_cases hft : f.path ∈ (undoFold actor chain).touched
      · rw [if_pos hft] at hkept
        have heq := hresolved _ _ hkept
        exact absurd hft (by rw [← heq, hpath]; exact hnot)
      · rw [if_neg hft] at hkept
        rwa [← Option.some.inj hkept]
    · rw [List.mem_insertionSort] at hq
      split at hrestored
      · cases hrestored
      · have heq := hresolved _ _ hrestored
        exact absurd hq (by rw [← heq, hpath]; exact hnot)
  · intro hfe
    exact .inl ⟨fe, hfe, by rw [hpath, if_neg hnot]⟩

/-- At a path the actor did not touch the undo has the newest files. -/
theorem mem_surgicalManifest_untouched (hchain : headManifests X st fs = .ok chain)
    (h : surgicalManifest X st actor fs = .ok (vm, paths))
    (hp : touchedBy actor p chain = false) {fe : FileEntry} (hpath : fe.path = p) :
    fe ∈ vm.files ↔ fe ∈ newestFiles chain := by
  obtain ⟨head, older, rfl, rfl, _, _⟩ := eq_of_surgicalManifest hchain h
  exact mem_undoneFiles_untouched hp hpath

/-- Where two lists have the same entries for a path, and one of them has one
at most, they have the same entry. -/
theorem entryAt_congr {files' : List FileEntry} (hdistinct : Distinct files')
    (h : ∀ fe, fe.path = p → (fe ∈ files ↔ fe ∈ files')) :
    entryAt files p = entryAt files' p := by
  cases hentry : entryAt files' p with
  | none =>
      rw [entryAt_eq_none] at hentry ⊢
      intro fe hfe hpath
      exact hentry fe ((h fe hpath).mp hfe) hpath
  | some fe =>
      obtain ⟨hfe, rfl⟩ := mem_of_entryAt hentry
      apply entryAt_eq_some ((h fe rfl).mpr hfe) rfl
      intro f hf hpath
      exact List.inj_on_of_nodup_map hdistinct ((h f hpath).mp hf) hfe hpath

/-- **The undone manifest.**  At a touched path it has the newest work of
anybody else, at any other path it has HEAD's state. -/
theorem stateOf_surgicalManifest (hchain : headManifests X st fs = .ok chain)
    (hdistinct : ∀ m ∈ chain, Distinct m.files)
    (h : surgicalManifest X st actor fs = .ok (vm, paths)) (p : Bytes) :
    stateOf vm.files p =
      if touchedBy actor p chain then newestWork actor p chain else chainState chain p := by
  obtain ⟨head, older, rfl, rfl, _, _⟩ := eq_of_surgicalManifest hchain h
  cases hp : touchedBy actor p (head :: older) with
  | true =>
      rw [if_pos rfl]
      exact stateOf_undoneFiles head.files hp
  | false =>
      rw [if_neg Bool.false_ne_true]
      have hentry : entryAt (undoneFiles (undoFold actor (head :: older)) head.files) p =
          entryAt head.files p :=
        entryAt_congr (hdistinct head List.mem_cons_self) fun fe hpath =>
          mem_undoneFiles_untouched hp hpath
      exact congrArg (Option.map FileEntry.content) hentry

/-! ## First appearances -/

/-- The first holder of a content is in the chain and holds it. -/
theorem mem_of_firstHolder (h : firstHolder p c chain = some m) :
    m ∈ chain ∧ stateOf m.files p = some c := by
  induction chain with
  | nil => cases h
  | cons m' older ih =>
      rcases Option.or_eq_some_iff.mp h with hold | ⟨_, hnew⟩
      · obtain ⟨hin, hstate⟩ := ih hold
        exact ⟨List.mem_cons_of_mem _ hin, hstate⟩
      · split at hnew
        · case isTrue hstate =>
            cases hnew
            exact ⟨List.mem_cons_self, hstate⟩
        · cases hnew

/-- An earlier appearance stays the first one. -/
theorem firstHolder_cons (h : firstHolder p c older = some m) (m' : Manifest) :
    firstHolder p c (m' :: older) = some m := by
  rw [firstHolder, h, Option.some_or]

/-- What an actor brought in first, the actor changed. -/
theorem touchedBy_of_firstBy (h : FirstBy actor p c chain) : touchedBy actor p chain = true := by
  induction chain with
  | nil =>
      obtain ⟨m, hm, _⟩ := h
      cases hm
  | cons m older ih =>
      obtain ⟨holder, hholder, hactor⟩ := h
      rw [touchedBy, Bool.or_eq_true]
      rcases Option.or_eq_some_iff.mp hholder with hold | ⟨hnone, hnew⟩
      · exact .inr (ih ⟨holder, hold, hactor⟩)
      · split at hnew
        · case isTrue hstate =>
            cases hnew
            have hchanged : stateOf m.files p ≠ chainState older p := by
              intro hsame
              rw [hstate] at hsame
              cases older with
              | nil => cases hsame
              | cons m' rest =>
                  have hfirst : firstHolder p c (m' :: rest) ≠ none := by
                    have hnewest : stateOf m'.files p = some c := hsame.symm
                    rw [firstHolder, if_pos hnewest]
                    cases firstHolder p c rest <;> simp
                  exact hfirst hnone
            exact .inl (by simp [hactor, hchanged])
        · cases hnew

/-- **The newest work is nobody's but somebody else's.**  Its content first
appeared at the path in a snapshot of somebody else. -/
theorem firstHolder_newestWork (hdistinct : ∀ m ∈ chain, Distinct m.files)
    (h : newestWork actor p chain = some c) :
    ∃ m, firstHolder p c chain = some m ∧ m.actor ≠ some actor := by
  induction chain with
  | nil => cases h
  | cons m older ih =>
      have hrest := fun m' hm' => hdistinct m' (List.mem_cons_of_mem _ hm')
      have hold : newestWork actor p older = some c →
          ∃ m', firstHolder p c (m :: older) = some m' ∧ m'.actor ≠ some actor := by
        intro hwork
        obtain ⟨m', hm', hactor⟩ := ih hrest hwork
        exact ⟨m', firstHolder_cons hm' m, hactor⟩
      unfold newestWork at h
      by_cases hactor : m.actor = some actor
      · rw [if_pos hactor] at h
        exact hold h
      · rw [if_neg hactor] at h
        rcases Option.or_eq_some_iff.mp h with hnew | ⟨_, hwork⟩
        · obtain ⟨fe, hfind, rfl⟩ := Option.map_eq_some_iff.mp hnew
          have hprop := List.find?_some hfind
          have hfe : fe ∈ m.files := List.mem_reverse.mp (List.mem_of_find?_eq_some hfind)
          simp only [decide_eq_true_eq] at hprop
          obtain ⟨rfl, hunheld⟩ := hprop
          have hstate : stateOf m.files fe.path = some fe.content :=
            stateOf_of_distinct (hdistinct m List.mem_cons_self) hfe
          cases hfirst : firstHolder fe.path fe.content older with
          | none =>
              refine ⟨m, ?_, hactor⟩
              rw [firstHolder, hfirst, if_pos hstate, Option.none_or]
          | some m' =>
              refine ⟨m', firstHolder_cons hfirst m, ?_⟩
              intro hm'
              obtain ⟨hin, hstate'⟩ := mem_of_firstHolder hfirst
              have hheld : heldBy actor fe.path fe.content older = true := by
                rw [heldBy, List.any_eq_true]
                exact ⟨m', hin, by simp [hm', hstate']⟩
              rw [hheld] at hunheld
              cases hunheld
        · exact hold hwork

/-! ## Undo leaves nothing of the actor -/

/-- **Surgical undo leaves nothing the actor introduced.**  The paths it returns
are those that a snapshot of the actor changed.  Every entry at such a path has a
content that was first there in a snapshot of somebody else, and any other path
has HEAD's entry. -/
theorem surgicalManifest_leaves_nothing (X : Crates) (st : Store) (actor : Bytes) (fs : Fs)
    (chain : List Manifest) (hchain : headManifests X st fs = .ok chain)
    (hdistinct : ∀ m ∈ chain, Distinct m.files) (vm : Manifest) (paths : List Bytes)
    (h : surgicalManifest X st actor fs = .ok (vm, paths)) :
    (∀ p, p ∈ paths ↔ touchedBy actor p chain = true) ∧
    (∀ fe ∈ vm.files, touchedBy actor fe.path chain = true →
      ∃ m, firstHolder fe.path fe.content chain = some m ∧ m.actor ≠ some actor) ∧
    (∀ p, touchedBy actor p chain = false →
      (∀ fe, fe.path = p → (fe ∈ vm.files ↔ fe ∈ newestFiles chain)) ∧
        entryAt vm.files p = entryAt (newestFiles chain) p) := by
  refine ⟨fun p => mem_paths_iff hchain h, ?_, ?_⟩
  · intro fe hfe htouched
    obtain ⟨head, older, rfl, rfl, _, _⟩ := eq_of_surgicalManifest hchain h
    have hwork := (hasState_undoneFiles head.files htouched).2 fe hfe rfl
    exact firstHolder_newestWork hdistinct hwork.symm
  · intro p hp
    have hmem : ∀ fe, fe.path = p → (fe ∈ vm.files ↔ fe ∈ newestFiles chain) :=
      fun fe hpath => mem_surgicalManifest_untouched hchain h hp hpath
    refine ⟨hmem, entryAt_congr ?_ hmem⟩
    obtain ⟨head, older, rfl, _, _, _⟩ := eq_of_surgicalManifest hchain h
    exact hdistinct head List.mem_cons_self

/-! ## Undo again -/

/-- A round of somebody else touches nothing. -/
theorem touchedBy_cons_other (hactor : m.actor ≠ some actor) :
    touchedBy actor p (m :: older) = touchedBy actor p older := by
  simp [touchedBy, hactor]

/-- A snapshot of somebody else counts as work where the actor's older
snapshots did not hold its content. -/
theorem newestWork_cons_other (hactor : m.actor ≠ some actor) (hdistinct : Distinct m.files) :
    newestWork actor p (m :: older) =
      ((stateOf m.files p).filter fun c => heldBy actor p c older = false).or
        (newestWork actor p older) := by
  rw [newestWork, if_neg hactor]
  congr 1
  cases hfind : m.files.reverse.find? fun fe =>
      fe.path = p ∧ heldBy actor p fe.content older = false with
  | some fe =>
      have hprop := List.find?_some hfind
      have hfe : fe ∈ m.files := List.mem_reverse.mp (List.mem_of_find?_eq_some hfind)
      simp only [decide_eq_true_eq] at hprop
      obtain ⟨rfl, hunheld⟩ := hprop
      rw [stateOf_of_distinct hdistinct hfe]
      simp [hunheld, Option.filter_some]
  | none =>
      cases hstate : stateOf m.files p with
      | none => rfl
      | some c =>
          obtain ⟨fe, hentry, rfl⟩ := Option.map_eq_some_iff.mp hstate
          obtain ⟨hfe, rfl⟩ := mem_of_entryAt hentry
          have hnot := List.find?_eq_none.mp hfind fe (List.mem_reverse.mpr hfe)
          simp only [decide_eq_true_eq, true_and] at hnot
          simp [hnot, Option.filter_some]

/-- A snapshot of somebody else that has the newest work adds none. -/
theorem newestWork_cons_undone (hactor : m.actor ≠ some actor) (hdistinct : Distinct m.files)
    (hstate : stateOf m.files p = newestWork actor p older) :
    newestWork actor p (m :: older) = newestWork actor p older := by
  rw [newestWork_cons_other hactor hdistinct, hstate]
  cases newestWork actor p older with
  | none => rfl
  | some c => cases hheld : heldBy actor p c older <;> simp [hheld, Option.filter_some]

/-- The undo of a chain that can be walked and that the actor touched. -/
theorem surgicalManifest_of_touched (hchain : headManifests X st fs = .ok chain)
    (hp : touchedBy actor p chain = true) :
    ∃ vm, surgicalManifest X st actor fs =
      .ok (vm, (undoFold actor chain).touched.insertionSort (· ≤ ·)) := by
  cases chain with
  | nil => cases hp
  | cons head older =>
      have hne : (undoFold actor (head :: older)).touched ≠ [] :=
        List.ne_nil_of_mem (mem_touched_undoFold.mpr hp)
      refine ⟨undoneManifest actor head older, ?_⟩
      unfold surgicalManifest
      rw [hchain]
      simp only [if_neg hne]

/-- A round of somebody else leaves the list of touched paths alone. -/
theorem touched_cons_other (hactor : m.actor ≠ some actor) :
    (undoFold actor (m :: older)).touched = (undoFold actor older).touched := by
  rw [undoFold, undoStep, if_neg hactor]
  generalize undoFold actor older = s
  induction m.files generalizing s with
  | nil => rfl
  | cons fe rest ih =>
      rw [List.foldl_cons, ih]
      unfold UndoState.adopt
      split <;> rfl

/-- **Surgical undo is idempotent.**  When somebody else's snapshot with the
undone manifest's contents is put on top of the chain, the undo of the longer
chain has the same contents and the same touched paths. -/
theorem surgicalManifest_idempotent (X : Crates) (st : Store) (actor : Bytes) (fs fs' : Fs)
    (chain : List Manifest) (m vm : Manifest) (paths : List Bytes)
    (hchain : headManifests X st fs = .ok chain)
    (hdistinct : ∀ m ∈ chain, Distinct m.files)
    (h : surgicalManifest X st actor fs = .ok (vm, paths))
    (hchain' : headManifests X st fs' = .ok (m :: chain)) (hactor : m.actor ≠ some actor)
    (hfiles : Distinct m.files) (hstate : ∀ p, stateOf m.files p = stateOf vm.files p) :
    ∃ vm', surgicalManifest X st actor fs' = .ok (vm', paths) ∧
      ∀ p, stateOf vm'.files p = stateOf vm.files p := by
  have hundone := stateOf_surgicalManifest hchain hdistinct h
  obtain ⟨_, _, _, _, hpaths, hne⟩ := eq_of_surgicalManifest hchain h
  obtain ⟨p₀, hp₀⟩ := List.exists_mem_of_ne_nil _ hne
  have htouched : touchedBy actor p₀ (m :: chain) = true := by
    rw [touchedBy_cons_other hactor]
    exact mem_touched_undoFold.mp hp₀
  obtain ⟨vm', hvm'⟩ := surgicalManifest_of_touched hchain' htouched
  rw [touched_cons_other hactor, ← hpaths] at hvm'
  refine ⟨vm', hvm', ?_⟩
  intro p
  have hdistinct' : ∀ m' ∈ m :: chain, Distinct m'.files := by
    intro m' hm'
    rcases List.mem_cons.mp hm' with rfl | hin
    · exact hfiles
    · exact hdistinct m' hin
  have hagain := stateOf_surgicalManifest hchain' hdistinct' hvm' p
  rw [touchedBy_cons_other hactor] at hagain
  rw [hagain]
  by_cases hp : touchedBy actor p chain = true
  · have hwork : stateOf m.files p = newestWork actor p chain := by
      rw [hstate, hundone, if_pos hp]
    rw [if_pos hp, newestWork_cons_undone hactor hfiles hwork, hundone, if_pos hp]
  · rw [if_neg hp]
    exact hstate p

/-! ## Undoing two actors -/

/-- A later snapshot that is nobody's brings in nothing for an actor. -/
theorem firstBy_cons_untagged (hactor : m.actor = none) :
    FirstBy actor p c (m :: older) ↔ FirstBy actor p c older := by
  constructor
  · rintro ⟨holder, hholder, hby⟩
    rcases Option.or_eq_some_iff.mp hholder with hold | ⟨_, hnew⟩
    · exact ⟨holder, hold, hby⟩
    · split at hnew
      · cases hnew
        rw [hactor] at hby
        cases hby
      · cases hnew
  · rintro ⟨holder, hholder, hby⟩
    exact ⟨holder, firstHolder_cons hholder m, hby⟩

/-- The newest work of others than the actor is not the actor's. -/
theorem not_firstBy_newestWork (hdistinct : ∀ m ∈ chain, Distinct m.files)
    (h : newestWork actor p chain = some c) : ¬ FirstBy actor p c chain := by
  rintro ⟨m, hm, hby⟩
  obtain ⟨m', hm', hother⟩ := firstHolder_newestWork hdistinct h
  rw [hm] at hm'
  cases hm'
  exact hother hby

/-- An undo leaves no content at any path that the actor brought in. -/
theorem not_firstBy_of_surgicalManifest (hchain : headManifests X st fs = .ok chain)
    (hdistinct : ∀ m ∈ chain, Distinct m.files)
    (h : surgicalManifest X st actor fs = .ok (vm, paths))
    (hstate : stateOf vm.files p = some c) : ¬ FirstBy actor p c chain := by
  rw [stateOf_surgicalManifest hchain hdistinct h] at hstate
  by_cases hp : touchedBy actor p chain = true
  · rw [if_pos hp] at hstate
    exact not_firstBy_newestWork hdistinct hstate
  · exact fun hfirst => hp (touchedBy_of_firstBy hfirst)

/-- After the undo of `a` and then of `b` no path has a content that either of
them brought in there. -/
def UndoesBoth (a b : Bytes) (chain : List Manifest) (vm : Manifest) : Prop :=
  ∀ p c, stateOf vm.files p = some c → ¬ FirstBy a p c chain ∧ ¬ FirstBy b p c chain

/-- Wherever `b` touched a path, the undo of `a` left a content there that `b`
never held, or the newest work of others than `b` before that undo was not
brought in by `a`. -/
def NoRevival (a b : Bytes) (chain : List Manifest) (undone : Manifest) : Prop :=
  ∀ p c, touchedBy b p chain = true →
    (∀ d, stateOf undone.files p = some d → heldBy b p d chain = true) →
    newestWork b p chain = some c → ¬ FirstBy a p c chain

/-- **When undoing two actors undoes both.**  The chain is followed by the undo
of `a`, and `b` is undone on that.  Nothing of either is left exactly where no
work of `a` is the newest that the undo of `b` falls back to. -/
theorem surgicalManifest_undoes_both_iff (X : Crates) (st : Store) (a b : Bytes) (fs fs' : Fs)
    (chain : List Manifest) (undone vm vm' : Manifest) (paths paths' : List Bytes)
    (hchain : headManifests X st fs = .ok chain) (hdistinct : ∀ m ∈ chain, Distinct m.files)
    (h : surgicalManifest X st a fs = .ok (vm, paths)) (huntagged : undone.actor = none)
    (hfiles : Distinct undone.files) (hstate : ∀ p, stateOf undone.files p = stateOf vm.files p)
    (hchain' : headManifests X st fs' = .ok (undone :: chain))
    (h' : surgicalManifest X st b fs' = .ok (vm', paths')) :
    UndoesBoth a b (undone :: chain) vm' ↔ NoRevival a b chain undone := by
  have hother : undone.actor ≠ some b := by
    rw [huntagged]
    exact nofun
  have hdistinct' : ∀ m ∈ undone :: chain, Distinct m.files := by
    intro m hm
    rcases List.mem_cons.mp hm with rfl | hin
    · exact hfiles
    · exact hdistinct m hin
  have hfinal := stateOf_surgicalManifest hchain' hdistinct' h'
  have hwork : ∀ p, newestWork b p (undone :: chain) =
      ((stateOf undone.files p).filter fun c => heldBy b p c chain = false).or
        (newestWork b p chain) := fun p => newestWork_cons_other hother hfiles
  constructor
  · intro hboth p c htouched hheld hc
    have hnone : (stateOf undone.files p).filter (fun c => heldBy b p c chain = false) = none := by
      cases hd : stateOf undone.files p with
      | none => rfl
      | some d => simp [Option.filter_some, hheld d hd]
    have hlast : stateOf vm'.files p = some c := by
      rw [hfinal, touchedBy_cons_other hother, if_pos htouched, hwork, hnone, Option.none_or, hc]
    exact fun hfirst => (hboth p c hlast).1 ((firstBy_cons_untagged huntagged).mpr hfirst)
  · intro hno p c hc
    refine ⟨?_, not_firstBy_of_surgicalManifest hchain' hdistinct' h' hc⟩
    rw [firstBy_cons_untagged huntagged]
    have hundone : stateOf undone.files p = some c → ¬ FirstBy a p c chain := by
      intro hd
      rw [hstate] at hd
      exact not_firstBy_of_surgicalManifest hchain hdistinct h hd
    rw [hfinal, touchedBy_cons_other hother] at hc
    by_cases htouched : touchedBy b p chain = true
    · rw [if_pos htouched, hwork] at hc
      rcases Option.or_eq_some_iff.mp hc with hleft | ⟨hnone, hold⟩
      · exact hundone (Option.filter_eq_some_iff.mp hleft).1
      · apply hno p c htouched _ hold
        intro d hd
        rw [hd, Option.filter_some] at hnone
        by_contra hheld
        simp [hheld] at hnone
    · rw [if_neg htouched] at hc
      exact hundone hc

/-! ## Undo and purges -/

/-- The revert refuses nothing exactly when nothing is purged. -/
theorem checkTombstones_eq_ok_iff {tombs : List Tombstone} :
    checkTombstones tombs files = .ok () ↔ NonePurged tombs files :=
  ⟨unpurged_of_check, checkTombstones_of_unpurged⟩

/-- **When an undo brings nothing purged back.**  HEAD's manifest has no purged
entry.  The undone one has none either, and is not refused for one, exactly
when the newest work of others at the touched paths is not purged. -/
theorem surgicalManifest_unpurged_iff (X : Crates) (st : Store) (actor : Bytes) (fs : Fs)
    (chain : List Manifest) (tombs : List Tombstone) (vm : Manifest) (paths : List Bytes)
    (hchain : headManifests X st fs = .ok chain)
    (h : surgicalManifest X st actor fs = .ok (vm, paths))
    (hhead : NonePurged tombs (newestFiles chain)) :
    NonePurged tombs vm.files ∧ checkTombstones tombs vm.files = .ok () ↔
      ∀ p c, touchedBy actor p chain = true → newestWork actor p chain = some c →
        ∀ t ∈ tombs, t.path ≠ p ∧ t.content ≠ hashHex c := by
  rw [checkTombstones_eq_ok_iff, and_self_iff]
  have hold : ∀ fe : FileEntry, touchedBy actor fe.path chain = false →
      (fe ∈ vm.files ↔ fe ∈ newestFiles chain) :=
    fun fe hp => mem_surgicalManifest_untouched hchain h hp rfl
  obtain ⟨head, older, rfl, rfl, _, _⟩ := eq_of_surgicalManifest hchain h
  constructor
  · intro hnone p c hp hc t ht
    have hstate : stateOf (undoneFiles (undoFold actor (head :: older)) head.files) p = some c := by
      rw [stateOf_undoneFiles head.files hp, hc]
    obtain ⟨fe, hentry, rfl⟩ := Option.map_eq_some_iff.mp hstate
    obtain ⟨hfe, rfl⟩ := mem_of_entryAt hentry
    exact hnone fe hfe t ht
  · intro hwork fe hfe t ht
    cases hp : touchedBy actor fe.path (head :: older) with
    | true =>
        have hc := (hasState_undoneFiles head.files hp).2 fe hfe rfl
        exact hwork fe.path fe.content hp hc.symm t ht
    | false => exact hhead fe ((hold fe hp).mp hfe) t ht

/-! ## Small histories -/

/-- The chain of a history, newest first. -/
def chainOf (history : List (Bytes × Manifest)) : List Manifest :=
  (history.map Prod.snd).reverse

/-- The undo of an edit that somebody overwrote. -/
theorem surgicalManifest_leaves_nothing_edited :
    ∃ vm, surgicalManifest (smallCrates editedHistory [] []) ⟨[str "w"]⟩ (str "bot")
        (historyFabric ⟨[str "w"]⟩ editedHistory) = .ok (vm, [str "f"]) ∧
      vm.files = [smallEntry (str "f") (str "C")] ∧
      (∀ p, p ∈ [str "f"] ↔ touchedBy (str "bot") p (chainOf editedHistory) = true) ∧
      (∀ fe ∈ vm.files, touchedBy (str "bot") fe.path (chainOf editedHistory) = true →
        ∃ m, firstHolder fe.path fe.content (chainOf editedHistory) = some m ∧
          m.actor ≠ some (str "bot")) ∧
      (∀ p, touchedBy (str "bot") p (chainOf editedHistory) = false →
        (∀ fe, fe.path = p → (fe ∈ vm.files ↔ fe ∈ newestFiles (chainOf editedHistory))) ∧
          entryAt vm.files p = entryAt (newestFiles (chainOf editedHistory)) p) := by
  have hundo : surgicalManifest (smallCrates editedHistory [] []) ⟨[str "w"]⟩ (str "bot")
      (historyFabric ⟨[str "w"]⟩ editedHistory) =
      .ok ({ smallManifest (some (decimal 1)) none [smallEntry (str "f") (str "C")] with
        message := str "surgical undo of actor 'bot'" }, [str "f"]) := by decide +kernel
  exact ⟨_, hundo, rfl, surgicalManifest_leaves_nothing (smallCrates editedHistory [] [])
    ⟨[str "w"]⟩ (str "bot") (historyFabric ⟨[str "w"]⟩ editedHistory) (chainOf editedHistory)
    (by decide +kernel) (by unfold Distinct; decide +kernel) _ _ hundo⟩

/-- Somebody made `A`, the bot wrote `B`, and the undo put `A` back. -/
def undoneHistory : List (Bytes × Manifest) :=
  fileHistory none 0 [(none, some (str "A")), (some (str "bot"), some (str "B")),
    (none, some (str "A"))]

example : newestWork (str "bot") (str "f") (chainOf undoneHistory) = some (padHash (str "A")) := by
  decide +kernel

/-- The undo of what was undone. -/
theorem surgicalManifest_idempotent_undone :
    ∃ vm', surgicalManifest (smallCrates undoneHistory [] []) ⟨[str "w"]⟩ (str "bot")
        (historyFabric ⟨[str "w"]⟩ undoneHistory) = .ok (vm', [str "f"]) ∧
      ∀ p, stateOf vm'.files p = stateOf [smallEntry (str "f") (str "A")] p :=
  surgicalManifest_idempotent (smallCrates undoneHistory [] []) ⟨[str "w"]⟩
    (str "bot") (historyFabric ⟨[str "w"]⟩ (undoneHistory.take 2))
    (historyFabric ⟨[str "w"]⟩ undoneHistory) (chainOf (undoneHistory.take 2))
    (smallManifest (some (decimal 1)) none [smallEntry (str "f") (str "A")])
    { smallManifest (some (decimal 0)) (some (str "bot")) [smallEntry (str "f") (str "A")] with
      message := str "surgical undo of actor 'bot'" } [str "f"]
    (by decide +kernel) (by unfold Distinct; decide +kernel) (by decide +kernel)
    (by decide +kernel) (by decide) (by unfold Distinct; decide +kernel) (fun _ => rfl)

/-- Somebody made `X`, Ann wrote `A`, Bob wrote `B`; the undo of Ann leaves
Bob's `B`. -/
def overlapHistory : List (Bytes × Manifest) :=
  fileHistory none 0 [(none, some (str "X")), (some (str "ann"), some (str "A")),
    (some (str "bob"), some (str "B")), (none, some (str "B"))]

/-- Bob wrote `B` over `X` and somebody put `X` back; then Ann wrote `A`, and
the undo of Ann leaves `X`. -/
def separateHistory : List (Bytes × Manifest) :=
  fileHistory none 0 [(none, some (str "X")), (some (str "bob"), some (str "B")),
    (none, some (str "X")), (some (str "ann"), some (str "A")), (none, some (str "X"))]

example : newestWork (str "bob") (str "f") (chainOf overlapHistory) = some (padHash (str "A")) := by
  decide +kernel

/-- What the undo of Ann and then of Bob leaves of the overlapping edits. -/
def overlapUndone : Manifest :=
  { smallManifest (some (decimal 2)) none [smallEntry (str "f") (str "A")] with
    message := str "surgical undo of actor 'bob'" }

/-- **The second undo revives the first actor's work.**  With Ann undone, the
undo of Bob falls back to what Ann wrote. -/
theorem surgicalManifest_revives :
    (∃ vm paths, surgicalManifest (smallCrates overlapHistory [] []) ⟨[str "w"]⟩ (str "ann")
        (historyFabric ⟨[str "w"]⟩ (overlapHistory.take 3)) = .ok (vm, paths) ∧
      vm.files = newestFiles (chainOf overlapHistory)) ∧
    (∃ paths, surgicalManifest (smallCrates overlapHistory [] []) ⟨[str "w"]⟩ (str "bob")
        (historyFabric ⟨[str "w"]⟩ overlapHistory) = .ok (overlapUndone, paths)) ∧
    ¬ UndoesBoth (str "ann") (str "bob") (chainOf overlapHistory) overlapUndone := by
  refine ⟨⟨{ smallManifest (some (decimal 1)) (some (str "bob")) [smallEntry (str "f") (str "B")]
      with message := str "surgical undo of actor 'ann'" }, [str "f"], by decide +kernel, rfl⟩,
    ⟨[str "f"], by decide +kernel⟩, ?_⟩
  intro h
  refine (h (str "f") (padHash (str "A")) (by decide +kernel)).1
    ⟨smallManifest (some (decimal 0)) (some (str "ann")) [smallEntry (str "f") (str "A")],
      by decide +kernel, by decide +kernel⟩

/-- With the edits separate, both are undone. -/
theorem surgicalManifest_undoes_both_iff_separate :
    UndoesBoth (str "ann") (str "bob") (chainOf separateHistory)
      { smallManifest (some (decimal 3)) none [smallEntry (str "f") (str "X")] with
        message := str "surgical undo of actor 'bob'" } := by
  refine (surgicalManifest_undoes_both_iff (smallCrates separateHistory [] []) ⟨[str "w"]⟩
    (str "ann") (str "bob") (historyFabric ⟨[str "w"]⟩ (separateHistory.take 4))
    (historyFabric ⟨[str "w"]⟩ separateHistory) (chainOf (separateHistory.take 4))
    (smallManifest (some (decimal 3)) none [smallEntry (str "f") (str "X")])
    { smallManifest (some (decimal 2)) (some (str "ann")) [smallEntry (str "f") (str "X")] with
      message := str "surgical undo of actor 'ann'" } _ [str "f"] [str "f"]
    (by decide +kernel) (by unfold Distinct; decide +kernel) (by decide +kernel) rfl
    (by unfold Distinct; decide +kernel) (fun _ => rfl) (by decide +kernel)
    (by decide +kernel)).mpr ?_
  intro p c hp hheld _ _
  have hf : p = str "f" := eq_of_touchedBy (by decide +kernel) hp
  subst hf
  -- what the undo of Ann left there Bob never held
  have hnever : heldBy (str "bob") (str "f") (padHash (str "X"))
      (chainOf (separateHistory.take 4)) = false := by decide +kernel
  rw [hheld _ (by decide +kernel)] at hnever
  cases hnever

/-- Somebody made `A`, the bot deleted it. -/
def droppedHistory : List (Bytes × Manifest) :=
  fileHistory none 0 [(none, some (str "A")), (some (str "bot"), none)]

example : newestWork (str "bot") (str "f") (chainOf droppedHistory) = some (padHash (str "A")) := by
  decide +kernel

/-- A purge of the file. -/
def droppedTomb : Tombstone :=
  { path := str "f", content := hashHex (padHash (str "A")), purgeId := [], ts := 0 }

/-- **An undo brings a purged file back.**  HEAD does not have the file any
more; the undo has it again, and is refused. -/
theorem surgicalManifest_restores_purged :
    NonePurged [droppedTomb] (newestFiles (chainOf droppedHistory)) ∧
      ∃ vm paths, surgicalManifest (smallCrates droppedHistory [] []) ⟨[str "w"]⟩ (str "bot")
          (historyFabric ⟨[str "w"]⟩ droppedHistory) = .ok (vm, paths) ∧
        ¬ NonePurged [droppedTomb] vm.files ∧ checkTombstones [droppedTomb] vm.files ≠ .ok () := by
  refine ⟨?_, { smallManifest (some (decimal 0)) (some (str "bot")) [smallEntry (str "f") (str "A")]
    with message := str "surgical undo of actor 'bot'" }, [str "f"], by decide +kernel, ?_,
    by decide +kernel⟩
  · intro fe hfe
    cases hfe
  · intro h
    exact absurd (h _ List.mem_cons_self _ List.mem_cons_self).1 (by decide)

/-- A purge of another file. -/
def besideTomb : Tombstone :=
  { path := str "g", content := hashHex (padHash (str "Z")), purgeId := [], ts := 0 }

/-- With another file purged the undo has the dropped file again. -/
theorem surgicalManifest_unpurged_iff_dropped :
    NonePurged [besideTomb] [smallEntry (str "f") (str "A")] ∧
      checkTombstones [besideTomb] [smallEntry (str "f") (str "A")] = .ok () := by
  refine (surgicalManifest_unpurged_iff (smallCrates droppedHistory [] []) ⟨[str "w"]⟩
    (str "bot") (historyFabric ⟨[str "w"]⟩ droppedHistory) (chainOf droppedHistory) [besideTomb]
    { smallManifest (some (decimal 0)) (some (str "bot")) [smallEntry (str "f") (str "A")] with
      message := str "surgical undo of actor 'bot'" } [str "f"] (by decide +kernel)
    (by decide +kernel) (fun fe hfe => by cases hfe)).mpr ?_
  intro p c hp hc t ht
  have hf : p = str "f" := eq_of_touchedBy (by decide +kernel) hp
  subst hf
  have hwork : newestWork (str "bot") (str "f") (chainOf droppedHistory) =
      some (padHash (str "A")) := by decide +kernel
  rw [hwork] at hc
  cases hc
  rw [List.mem_singleton.mp ht]
  decide +kernel

end Revert

end Respawn
