import Mathlib.Data.List.Dedup
import Respawn.Revert

/-!
# Surgical undo

`surgical_manifest` folds over HEAD's chain from the oldest snapshot on and
keeps, for every path, whether the actor touched it, the entry before the
first touch, the contents the actor's snapshots hold there and the newest
entry of anybody else with a content not among those.

The chain is kept newest first, as it is loaded, so that the tail of a chain
is the history a snapshot was made on.  `surgicalManifest_stateAt` says what
the manifest holds at a touched path in terms of the chain alone
(`newestWork`); the fold's maps do not occur in it, and `pre` turns out to
decide nothing.
-/

namespace Respawn

open ByteStr FileTree

variable (X : Crates) (st : Store)

namespace Revert

/-- HEAD's chain, newest first, of at most `n` snapshots. -/
def manifestChain (fs : Fs) : Nat → Option Hash → Except Error (List Manifest)
  | _, none => .ok []
  | 0, some _ => .error (.corrupt (str "manifest chain too long"))
  | n + 1, some id =>
      match Snapshot.load X st fs id with
      | .error e => .error e
      | .ok m => match manifestChain fs n m.parent with
        | .error e => .error e
        | .ok older => .ok (m :: older)

/-- The longest chain `surgical_manifest` walks. -/
def MAX_CHAIN : Nat := 2000001

/-- The snapshots of HEAD's chain, newest first. -/
def headManifests (fs : Fs) : Except Error (List Manifest) :=
  match st.head fs with
  | .error e => .error e
  | .ok head => manifestChain X st fs MAX_CHAIN head

/-- The maps of the fold. -/
structure UndoState where
  touched : List Bytes
  pre : Bytes → Option (Option FileEntry)
  actorContent : Bytes → List Hash
  effective : Bytes → Option FileEntry

def UndoState.empty : UndoState := ⟨[], fun _ => none, fun _ => [], fun _ => none⟩

/-- Mark a path as touched; its entry before the first touch is kept. -/
def UndoState.touch (s : UndoState) (prev : List FileEntry) (p : Bytes) : UndoState :=
  { s with
    touched := s.touched.insert p
    pre := Function.update s.pre p (some ((s.pre p).getD (entryAt prev p))) }

/-- Note a content the actor's snapshot holds at `p`. -/
def UndoState.hold (s : UndoState) (p : Bytes) (c : Hash) : UndoState :=
  { s with actorContent := Function.update s.actorContent p ((s.actorContent p).insert c) }

/-- The actor's snapshot may have an entry at `p`. -/
def UndoState.capture (s : UndoState) (prev cur : List FileEntry) (p : Bytes) : UndoState :=
  match entryAt cur p with
  | none => s
  | some fe =>
      if (entryAt prev p).map FileEntry.content ≠ some fe.content then
        (s.touch prev p).hold p fe.content
      else s.hold p fe.content

/-- The actor's snapshot may have dropped `p`. -/
def UndoState.drop (s : UndoState) (prev cur : List FileEntry) (p : Bytes) : UndoState :=
  match entryAt cur p with
  | none => s.touch prev p
  | some _ => s

/-- An entry in somebody else's snapshot. -/
def UndoState.adopt (s : UndoState) (fe : FileEntry) : UndoState :=
  if fe.content ∈ s.actorContent fe.path then s
  else { s with effective := Function.update s.effective fe.path (some fe) }

/-- The paths of a list of entries: the keys of the map collected from it. -/
def keys (files : List FileEntry) : List Bytes := (files.map FileEntry.path).dedup

/-- One round of the fold, `prev` being the entries of the parent. -/
def undoStep (actor : Bytes) (prev : List FileEntry) (m : Manifest) (s : UndoState) :
    UndoState :=
  if m.actor = some actor then
    let s := (keys m.files).foldl (fun s p => s.capture prev m.files p) s
    (keys prev).foldl (fun s p => s.drop prev m.files p) s
  else m.files.foldl UndoState.adopt s

/-- The entries of the newest snapshot of a chain. -/
def newestFiles : List Manifest → List FileEntry
  | [] => []
  | m :: _ => m.files

/-- The fold over a chain, given newest first. -/
def undoFold (actor : Bytes) : List Manifest → UndoState
  | [] => UndoState.empty
  | m :: older => undoStep actor (newestFiles older) m (undoFold actor older)

/-- What a touched path resolves to. -/
def UndoState.resolve (s : UndoState) (p : Bytes) : Option FileEntry :=
  (s.effective p).or (s.pre p).join

/-- The entries of the manifest without the actor's work. -/
def undoneFiles (s : UndoState) (head : List FileEntry) : List FileEntry :=
  let kept := head.filterMap fun f => if f.path ∈ s.touched then s.resolve f.path else some f
  let restored := (s.touched.insertionSort (· ≤ ·)).filterMap fun p =>
    if p ∈ head.map FileEntry.path then none else s.resolve p
  (kept ++ restored).insertionSort fun a b => a.path ≤ b.path

/-- HEAD's manifest without the actor's work. -/
def undoneManifest (actor : Bytes) (head : Manifest) (older : List Manifest) : Manifest :=
  { head with
    files := undoneFiles (undoFold actor (head :: older)) head.files
    message := str "surgical undo of actor '" ++ actor ++ str "'" }

/-- The manifest HEAD would have if the actor's snapshots had never run, and
the paths the actor touched. -/
def surgicalManifest (actor : Bytes) (fs : Fs) : Except Error (Manifest × List Bytes) :=
  match headManifests X st fs with
  | .error e => .error e
  | .ok [] => .error (.corrupt (str "no HEAD snapshot"))
  | .ok (head :: older) =>
      let s := undoFold actor (head :: older)
      if s.touched = [] then
        .error (.corrupt (str "no changes by actor '" ++ actor ++ str "' in the HEAD chain"))
      else .ok (undoneManifest actor head older, s.touched.insertionSort (· ≤ ·))

/-! ## One path at a time -/

/-- What the fold knows about one path. -/
structure PathView where
  touched : Prop
  pre : Option (Option FileEntry)
  actorContent : List Hash
  effective : Option FileEntry

def UndoState.view (s : UndoState) (p : Bytes) : PathView :=
  ⟨p ∈ s.touched, s.pre p, s.actorContent p, s.effective p⟩

def PathView.touch (v : PathView) (old : Option FileEntry) : PathView :=
  { v with touched := True, pre := some (v.pre.getD old) }

def PathView.hold (v : PathView) (c : Hash) : PathView :=
  { v with actorContent := v.actorContent.insert c }

/-- A path's state in a list of entries: a content hash, or absence. -/
def stateOf (files : List FileEntry) (p : Bytes) : Option Hash :=
  (entryAt files p).map FileEntry.content

/-- `UndoState.capture`, on one path. -/
def PathView.capture (v : PathView) (prev cur : List FileEntry) (p : Bytes) : PathView :=
  match stateOf cur p with
  | none => v
  | some c =>
      if stateOf prev p ≠ some c then (v.touch (entryAt prev p)).hold c else v.hold c

/-- `UndoState.drop`, on one path. -/
def PathView.drop (v : PathView) (prev cur : List FileEntry) (p : Bytes) : PathView :=
  match stateOf cur p with
  | none => v.touch (entryAt prev p)
  | some _ => v

/-- A whole round of the actor, on one path: `old` is the parent's entry and
`now` the state in the actor's snapshot. -/
def PathView.round (v : PathView) (old : Option FileEntry) (now : Option Hash) : PathView :=
  { touched := v.touched ∨ now ≠ old.map FileEntry.content
    pre := if now ≠ old.map FileEntry.content then some (v.pre.getD old) else v.pre
    actorContent := match now with
      | some c => v.actorContent.insert c
      | none => v.actorContent
    effective := v.effective }

theorem mem_keys {files : List FileEntry} {p : Bytes} :
    p ∈ keys files ↔ entryAt files p ≠ none := by
  unfold keys
  rw [List.mem_dedup, ne_eq, ← not_mem_paths_iff, not_not]

/-- A fold over different paths, each round of which changes one path only,
changes a path once. -/
theorem foldl_view {f : UndoState → Bytes → UndoState} {F : PathView → PathView} {p : Bytes}
    (hother : ∀ s q, q ≠ p → (f s q).view p = s.view p)
    (hself : ∀ s, (f s p).view p = F (s.view p))
    {ps : List Bytes} (hnodup : ps.Nodup) (s : UndoState) :
    (ps.foldl f s).view p = if p ∈ ps then F (s.view p) else s.view p := by
  induction ps generalizing s with
  | nil => rfl
  | cons q qs ih =>
      obtain ⟨hq, hqs⟩ := List.nodup_cons.mp hnodup
      rw [List.foldl_cons, ih hqs (f s q)]
      by_cases heq : q = p
      · subst heq
        rw [if_neg hq, if_pos (by simp), hself]
      · rw [hother s q heq]
        simp only [List.mem_cons, Ne.symm heq, false_or]

/-- Touching changes the path only. -/
theorem touch_view (s : UndoState) (prev : List FileEntry) (q p : Bytes) :
    (s.touch prev q).view p =
      if q = p then (s.view p).touch (entryAt prev p) else s.view p := by
  by_cases h : q = p
  · subst h
    simp [UndoState.touch, UndoState.view, PathView.touch]
  · simp [UndoState.touch, UndoState.view, h, Ne.symm h]

/-- Holding a content back concerns one path. -/
theorem hold_view (s : UndoState) (q p : Bytes) (c : Hash) :
    (s.hold q c).view p = if q = p then (s.view p).hold c else s.view p := by
  by_cases h : q = p
  · subst h
    simp [UndoState.hold, UndoState.view, PathView.hold]
  · simp [UndoState.hold, UndoState.view, h, Ne.symm h]

/-- Capturing a content concerns one path. -/
theorem capture_view (s : UndoState) (prev cur : List FileEntry) (q p : Bytes) :
    (s.capture prev cur q).view p =
      if q = p then (s.view p).capture prev cur p else s.view p := by
  unfold UndoState.capture PathView.capture
  by_cases h : q = p
  · subst h
    rw [if_pos rfl]
    unfold stateOf
    cases entryAt cur q with
    | none => rfl
    | some fe =>
        simp only [Option.map_some]
        split
        · rw [hold_view, if_pos rfl, touch_view, if_pos rfl]
        · rw [hold_view, if_pos rfl]
  · rw [if_neg h]
    split
    · rfl
    · split
      · rw [hold_view, if_neg h, touch_view, if_neg h]
      · rw [hold_view, if_neg h]

/-- Dropping a path concerns that path. -/
theorem drop_view (s : UndoState) (prev cur : List FileEntry) (q p : Bytes) :
    (s.drop prev cur q).view p =
      if q = p then (s.view p).drop prev cur p else s.view p := by
  unfold UndoState.drop PathView.drop
  by_cases h : q = p
  · subst h
    rw [if_pos rfl]
    unfold stateOf
    cases entryAt cur q with
    | none => rw [touch_view, if_pos rfl]; rfl
    | some fe => rfl
  · rw [if_neg h]
    split
    · rw [touch_view, if_neg h]
    · rfl

/-- **A round of the actor.**  A path whose state changed is touched, and the
content it has now is noted. -/
theorem undoStep_view_actor {actor : Bytes} {m : Manifest} (hactor : m.actor = some actor)
    (prev : List FileEntry) (s : UndoState) (p : Bytes) :
    (undoStep actor prev m s).view p =
      (s.view p).round (entryAt prev p) (stateOf m.files p) := by
  have hcapture := foldl_view (F := fun v => v.capture prev m.files p)
    (fun s q hq => by rw [capture_view, if_neg hq])
    (fun s => by rw [capture_view, if_pos rfl]) (List.nodup_dedup (m.files.map FileEntry.path)) s
  have hdrop := foldl_view (F := fun v => v.drop prev m.files p)
    (fun s q hq => by rw [drop_view, if_neg hq])
    (fun s => by rw [drop_view, if_pos rfl]) (List.nodup_dedup (prev.map FileEntry.path))
  have hcur : p ∈ (m.files.map FileEntry.path).dedup ↔ _ := mem_keys
  have hprev : p ∈ (prev.map FileEntry.path).dedup ↔ _ := mem_keys
  unfold undoStep
  simp only [hactor, if_true]
  unfold keys
  rw [hdrop, hcapture]
  have hcurOf : stateOf m.files p = none ↔ entryAt m.files p = none := Option.map_eq_none_iff
  have hprevOf : stateOf prev p = none ↔ entryAt prev p = none := Option.map_eq_none_iff
  have hstate : (entryAt prev p).map FileEntry.content = stateOf prev p := rfl
  unfold PathView.capture PathView.drop PathView.round
  rw [hstate]
  cases hc : stateOf m.files p with
  | none =>
      have hnot : p ∉ (m.files.map FileEntry.path).dedup := fun h => hcur.mp h (hcurOf.mp hc)
      rw [if_neg hnot]
      cases hp : stateOf prev p with
      | none =>
          have hnot' : p ∉ (prev.map FileEntry.path).dedup := fun h => hprev.mp h (hprevOf.mp hp)
          rw [if_neg hnot']
          simp
      | some c =>
          have hin : p ∈ (prev.map FileEntry.path).dedup := by
            apply hprev.mpr
            intro h
            simp [hprevOf.mpr h] at hp
          rw [if_pos hin]
          simp [PathView.touch]
  | some c =>
      have hin : p ∈ (m.files.map FileEntry.path).dedup := by
        apply hcur.mpr
        intro h
        simp [hcurOf.mpr h] at hc
      rw [if_pos hin]
      by_cases hsame : stateOf prev p = some c
      · simp [hsame, PathView.hold]
      · simp [hsame, Ne.symm hsame, PathView.hold, PathView.touch]

/-- **A round of anybody else.**  The last entry at the path with a content the
actor does not hold becomes the one to fall back to. -/
theorem undoStep_view_other {actor : Bytes} {m : Manifest} (hactor : m.actor ≠ some actor)
    (prev : List FileEntry) (s : UndoState) (p : Bytes) :
    (undoStep actor prev m s).view p =
      { s.view p with
        effective := (m.files.reverse.find? fun fe =>
          fe.path = p ∧ fe.content ∉ s.actorContent p).or (s.effective p) } := by
  unfold undoStep
  rw [if_neg hactor]
  generalize m.files = files
  -- entry by entry from the front: the last one adopted wins
  induction files generalizing s with
  | nil => rfl
  | cons fe rest ih =>
      have hcontent : (s.adopt fe).actorContent = s.actorContent := by
        unfold UndoState.adopt
        split <;> rfl
      rw [List.foldl_cons, ih, hcontent, List.reverse_cons, List.find?_append, Option.or_assoc]
      by_cases hadopt : fe.content ∈ s.actorContent fe.path
      · have hskip : s.adopt fe = s := if_pos hadopt
        have hnone : ([fe].find? fun fe => fe.path = p ∧ fe.content ∉ s.actorContent p) = none := by
          grind
        rw [hskip, hnone, Option.none_or]
      · have htake : s.adopt fe =
            { s with effective := Function.update s.effective fe.path (some fe) } := if_neg hadopt
        rw [htake]
        by_cases hp : fe.path = p
        · subst hp
          have hsome : ([fe].find? fun f => f.path = fe.path ∧ f.content ∉ s.actorContent fe.path) =
              some fe := by
            simp [hadopt]
          simp [UndoState.view, hadopt]
        · simp [UndoState.view, hp, Function.update_of_ne (Ne.symm hp)]

/-! ## The history of a path -/

/-- A path's state in the newest snapshot of a chain; before the first one it
is absent. -/
def chainState (chain : List Manifest) (p : Bytes) : Option Hash := stateOf (newestFiles chain) p

/-- Did a snapshot of the actor change the path? -/
def touchedBy (actor p : Bytes) : List Manifest → Bool
  | [] => false
  | m :: older =>
      (m.actor = some actor && stateOf m.files p ≠ chainState older p) || touchedBy actor p older

/-- A path that no snapshot has is touched by nobody. -/
theorem touchedBy_eq_false {actor p : Bytes} {chain : List Manifest}
    (h : ∀ m ∈ chain, stateOf m.files p = none) : touchedBy actor p chain = false := by
  induction chain with
  | nil => rfl
  | cons m older ih =>
      have hrest := ih fun m' hm' => h m' (List.mem_cons_of_mem m hm')
      have hprev : chainState older p = none := by
        cases older with
        | nil => rfl
        | cons m' _ => exact h m' (List.mem_cons_of_mem m List.mem_cons_self)
      rw [touchedBy, hrest, h m List.mem_cons_self, hprev]
      simp

/-- Did a snapshot of the actor hold this content at the path? -/
def heldBy (actor p : Bytes) (c : Hash) (chain : List Manifest) : Bool :=
  chain.any fun m => m.actor = some actor && stateOf m.files p = some c

/-- Did a snapshot of the actor change the path to this content? -/
def introducedBy (actor p : Bytes) (c : Hash) : List Manifest → Bool
  | [] => false
  | m :: older =>
      (m.actor = some actor && stateOf m.files p = some c && chainState older p ≠ some c) ||
        introducedBy actor p c older

/-- Somebody else's snapshot `m` changes the path, to a deletion or to a
content that the actor had not introduced there. -/
def foreignChange (actor p : Bytes) (m : Manifest) (older : List Manifest) : Bool :=
  m.actor ≠ some actor && stateOf m.files p ≠ chainState older p &&
    match stateOf m.files p with
    | some c => !introducedBy actor p c older
    | none => true

/-- The state the newest foreign change of the path left, if there is one. -/
def newestForeignChange (actor p : Bytes) : List Manifest → Option (Option Hash)
  | [] => none
  | m :: older =>
      if foreignChange actor p m older then some (stateOf m.files p)
      else newestForeignChange actor p older

/-- The content at the path in the newest snapshot of anybody else that has an
entry there whose content no earlier snapshot of the actor holds. -/
def newestWork (actor p : Bytes) : List Manifest → Option Hash
  | [] => none
  | m :: older =>
      if m.actor = some actor then newestWork actor p older
      else ((m.files.reverse.find? fun fe =>
        fe.path = p ∧ heldBy actor p fe.content older = false).map FileEntry.content).or
          (newestWork actor p older)

/-- What the fold knows of a path, in terms of the chain.  While the actor has
not touched it, nobody's work being on record means that the path never
existed (`origin`); so `pre` holds an entry only where somebody else's work is
on record too (`covered`). -/
structure Tracks (actor p : Bytes) (chain : List Manifest) (v : PathView) : Prop where
  touched : v.touched ↔ touchedBy actor p chain = true
  held : ∀ c, c ∈ v.actorContent ↔ heldBy actor p c chain = true
  work : v.effective.map FileEntry.content = newestWork actor p chain
  path : ∀ fe, v.effective = some fe → fe.path = p
  untouched : v.pre = none → touchedBy actor p chain = false
  origin : touchedBy actor p chain = false → v.effective = none →
    chainState chain p = none ∧ v.actorContent = []
  covered : ∀ fe, v.pre = some (some fe) → v.effective ≠ none

/-- Before any snapshot nothing is touched. -/
theorem tracks_empty (actor p : Bytes) : Tracks actor p [] (UndoState.empty.view p) where
  touched := by simp [UndoState.view, UndoState.empty, touchedBy]
  held := by simp [UndoState.view, UndoState.empty, heldBy]
  work := rfl
  path := by simp [UndoState.view, UndoState.empty]
  untouched := by simp [touchedBy]
  origin := fun _ _ => ⟨rfl, rfl⟩
  covered := by simp [UndoState.view, UndoState.empty]

/-- A snapshot of the actor keeps the record. -/
theorem Tracks.actor {actor p : Bytes} {m : Manifest} {older : List Manifest} {s : UndoState}
    (hactor : m.actor = some actor) (h : Tracks actor p older (s.view p)) :
    Tracks actor p (m :: older) ((undoStep actor (newestFiles older) m s).view p) := by
  rw [undoStep_view_actor hactor]
  have hold : (entryAt (newestFiles older) p).map FileEntry.content = chainState older p := rfl
  have htouchedBy : touchedBy actor p (m :: older) = true ↔
      stateOf m.files p ≠ chainState older p ∨ touchedBy actor p older = true := by
    simp [touchedBy, hactor]
  have hsame : touchedBy actor p (m :: older) = false →
      stateOf m.files p = chainState older p ∧ touchedBy actor p older = false := by
    intro hu
    simpa [touchedBy, hactor] using hu
  constructor
  · rw [htouchedBy, ← h.touched, or_comm]
    exact Iff.rfl
  · intro c
    have hstep : heldBy actor p c (m :: older) = true ↔
        stateOf m.files p = some c ∨ heldBy actor p c older = true := by
      simp [heldBy, hactor]
    rw [hstep, ← h.held c]
    cases hm : stateOf m.files p with
    | none => simp [PathView.round]
    | some d => simp [PathView.round, List.mem_insert_iff, eq_comm]
  · have hwork : newestWork actor p (m :: older) = newestWork actor p older := by
      simp [newestWork, hactor]
    rw [hwork]
    exact h.work
  · exact h.path
  · intro hnone
    simp only [PathView.round, hold] at hnone
    by_cases hc : stateOf m.files p = chainState older p
    · rw [if_neg (not_not.mpr hc)] at hnone
      have hu := h.untouched hnone
      simp [touchedBy, hc, hu]
    · rw [if_pos hc] at hnone
      cases hnone
  · intro hu heffnone
    obtain ⟨hc, hu'⟩ := hsame hu
    obtain ⟨habsent, hempty⟩ := h.origin hu' heffnone
    have hm : stateOf m.files p = none := hc.trans habsent
    exact ⟨hm, by simpa [PathView.round, hm] using hempty⟩
  · intro fe hfe
    simp only [PathView.round, hold] at hfe
    by_cases hc : stateOf m.files p = chainState older p
    · rw [if_neg (not_not.mpr hc)] at hfe
      exact h.covered fe hfe
    · rw [if_pos hc] at hfe
      cases hpre : (s.view p).pre with
      | some old =>
          have hkept : some old = some (some fe) := by simpa [hpre] using hfe
          exact h.covered fe (by rw [hpre, hkept])
      | none =>
          intro hnone
          have habsent := (h.origin (h.untouched hpre) hnone).1
          have hentry : entryAt (newestFiles older) p = some fe := by simpa [hpre] using hfe
          simp [chainState, stateOf, hentry] at habsent

/-- A snapshot of anybody else keeps the record. -/
theorem Tracks.other {actor p : Bytes} {m : Manifest} {older : List Manifest} {s : UndoState}
    (hactor : m.actor ≠ some actor) (h : Tracks actor p older (s.view p)) :
    Tracks actor p (m :: older) ((undoStep actor (newestFiles older) m s).view p) := by
  rw [undoStep_view_other hactor]
  have htouched : touchedBy actor p (m :: older) = touchedBy actor p older := by
    simp [touchedBy, hactor]
  have hfind : (m.files.reverse.find? fun fe =>
        fe.path = p ∧ heldBy actor p fe.content older = false) =
      m.files.reverse.find? fun fe => fe.path = p ∧ fe.content ∉ s.actorContent p := by
    congr 1
    funext fe
    have hheld : fe.content ∈ s.actorContent p ↔ _ := h.held fe.content
    simp [hheld]
  constructor
  · simpa [htouched] using h.touched
  · intro c
    have hstep : heldBy actor p c (m :: older) = heldBy actor p c older := by
      simp [heldBy, hactor]
    rw [hstep]
    exact h.held c
  · have hwork : (s.effective p).map FileEntry.content = newestWork actor p older := h.work
    simp only [newestWork, hactor, if_false, hfind, ← hwork]
    cases (m.files.reverse.find? fun fe => fe.path = p ∧ fe.content ∉ s.actorContent p) <;> rfl
  · intro fe hfe
    rcases Option.or_eq_some_iff.mp hfe with hnew | ⟨_, hold⟩
    · have hprop := List.find?_some hnew
      simp only [decide_eq_true_eq] at hprop
      exact hprop.1
    · exact h.path fe hold
  · intro hnone
    rw [htouched]
    exact h.untouched hnone
  · intro hu hnone
    obtain ⟨hnew, hold⟩ := Option.or_eq_none_iff.mp hnone
    obtain ⟨_, hempty⟩ := h.origin (htouched ▸ hu) hold
    have hempty' : s.actorContent p = [] := hempty
    refine ⟨?_, hempty⟩
    unfold chainState newestFiles stateOf
    rw [Option.map_eq_none_iff, entryAt_eq_none]
    intro fe hfe hp
    have hnot := List.find?_eq_none.mp hnew fe (List.mem_reverse.mpr hfe)
    simp [hp, hempty'] at hnot
  · intro fe hfe hnone
    exact h.covered fe hfe (Option.or_eq_none_iff.mp hnone).2

/-- **The fold knows the chain.** -/
theorem undoFold_tracks (actor p : Bytes) (chain : List Manifest) :
    Tracks actor p chain ((undoFold actor chain).view p) := by
  induction chain with
  | nil => exact tracks_empty actor p
  | cons m older ih =>
      by_cases hactor : m.actor = some actor
      · exact ih.actor hactor
      · exact ih.other hactor

theorem mem_touched_undoFold {actor p : Bytes} {chain : List Manifest} :
    p ∈ (undoFold actor chain).touched ↔ touchedBy actor p chain = true :=
  (undoFold_tracks actor p chain).touched

/-- The entry before the first touch decides nothing. -/
theorem resolve_undoFold (actor p : Bytes) (chain : List Manifest) :
    (undoFold actor chain).resolve p = (undoFold actor chain).effective p := by
  have h := undoFold_tracks actor p chain
  unfold UndoState.resolve
  cases heff : (undoFold actor chain).effective p with
  | some fe => rfl
  | none =>
      cases hpre : (undoFold actor chain).pre p with
      | none => rfl
      | some old => cases old with
        | none => rfl
        | some fe => exact absurd heff (h.covered fe hpre)

/-- At a touched path the new manifest has the entry the path resolves to. -/
theorem mem_undoneFiles {actor p : Bytes} {chain : List Manifest} {head : List FileEntry}
    (hp : touchedBy actor p chain = true) (fe : FileEntry) :
    fe ∈ undoneFiles (undoFold actor chain) head ∧ fe.path = p ↔
      (undoFold actor chain).resolve p = some fe := by
  have hpath : ∀ q e, (undoFold actor chain).resolve q = some e → e.path = q := by
    intro q e he
    rw [resolve_undoFold] at he
    exact (undoFold_tracks actor q chain).path e he
  have htouched := mem_touched_undoFold.mpr hp
  unfold undoneFiles
  rw [List.mem_insertionSort, List.mem_append, List.mem_filterMap, List.mem_filterMap]
  constructor
  · intro h
    obtain ⟨hin, hfe⟩ := h
    rcases hin with ⟨f, _, hf⟩ | ⟨q, _, hq⟩
    · by_cases hft : f.path ∈ (undoFold actor chain).touched
      · rw [if_pos hft] at hf
        have heq := hpath _ _ hf
        rwa [← heq, hfe] at hf
      · rw [if_neg hft] at hf
        have heq : f = fe := Option.some.inj hf
        exact absurd htouched (by rw [← hfe, ← heq]; exact hft)
    · by_cases hqh : q ∈ head.map FileEntry.path
      · rw [if_pos hqh] at hq
        cases hq
      · rw [if_neg hqh] at hq
        have heq := hpath _ _ hq
        rwa [← heq, hfe] at hq
  · intro h
    refine ⟨?_, hpath p fe h⟩
    by_cases hph : p ∈ head.map FileEntry.path
    · obtain ⟨f, hf, hfp⟩ := List.mem_map.mp hph
      exact Or.inl ⟨f, hf, by rw [hfp, if_pos htouched, h]⟩
    · refine Or.inr ⟨p, ?_, by rw [if_neg hph, h]⟩
      rw [List.mem_insertionSort]
      exact htouched

/-- **What surgical undo leaves at a touched path.**  It is the newest work of
anybody else that no earlier snapshot of the actor holds. -/
theorem stateOf_undoneFiles {actor p : Bytes} {chain : List Manifest} (head : List FileEntry)
    (hp : touchedBy actor p chain = true) :
    stateOf (undoneFiles (undoFold actor chain) head) p = newestWork actor p chain := by
  have hwork := (undoFold_tracks actor p chain).work
  have hmem : ∀ fe, fe ∈ undoneFiles (undoFold actor chain) head ∧ fe.path = p ↔ _ :=
    mem_undoneFiles hp
  have hresolve : (undoFold actor chain).resolve p = ((undoFold actor chain).view p).effective :=
    resolve_undoFold actor p chain
  rw [← hwork, ← hresolve]
  unfold stateOf
  congr 1
  cases hr : (undoFold actor chain).resolve p with
  | none =>
      rw [entryAt_eq_none]
      intro fe hfe hfp
      rw [(hmem fe).mp ⟨hfe, hfp⟩] at hr
      cases hr
  | some fe =>
      obtain ⟨hfe, hfp⟩ := (hmem fe).mpr hr
      apply entryAt_eq_some hfe hfp
      intro f hf hfp'
      have hf' := (hmem f).mp ⟨hf, hfp'⟩
      exact Option.some.inj (hf'.symm.trans hr)

/-- At `p` the entries have exactly the state `s`. -/
def HasState (files : List FileEntry) (p : Bytes) (s : Option Hash) : Prop :=
  stateOf files p = s ∧ ∀ fe ∈ files, fe.path = p → some fe.content = s

/-- The manifest has at every path that the actor touched and that has a
foreign change exactly the state the newest foreign change left. -/
def KeepsForeignChanges (actor : Bytes) (chain : List Manifest) (vm : Manifest) : Prop :=
  ∀ p s, touchedBy actor p chain = true → newestForeignChange actor p chain = some s →
    HasState vm.files p s

/-- The newest foreign change of every touched path is what the newest work on
record shows: a content that is that work, or a deletion where no work of
anybody else is on record at all. -/
def ForeignChangesOnRecord (actor : Bytes) (chain : List Manifest) : Prop :=
  ∀ p s, touchedBy actor p chain = true → newestForeignChange actor p chain = some s →
    newestWork actor p chain = s

/-- The files of the undo have, at a path the actor touched, the newest other
state. -/
theorem hasState_undoneFiles {actor p : Bytes} {chain : List Manifest} (head : List FileEntry)
    (hp : touchedBy actor p chain = true) :
    HasState (undoneFiles (undoFold actor chain) head) p (newestWork actor p chain) := by
  refine ⟨stateOf_undoneFiles head hp, ?_⟩
  intro fe hfe hfp
  have hr := (mem_undoneFiles hp fe).mp ⟨hfe, hfp⟩
  rw [resolve_undoFold] at hr
  have hwork := (undoFold_tracks actor p chain).work
  rw [← hwork]
  exact (congrArg (Option.map FileEntry.content) hr).symm

/-- **When surgical undo keeps everyone else's latest work.**  Over every chain
of HEAD in which the actor touched something, the manifest is made, and it
keeps the newest foreign changes exactly when they are on record. -/
theorem surgicalManifest_keeps_iff (actor : Bytes) (fs : Fs) (chain : List Manifest)
    (hchain : headManifests X st fs = .ok chain)
    (htouched : ∃ p, touchedBy actor p chain = true) :
    ∃ vm paths, surgicalManifest X st actor fs = .ok (vm, paths) ∧
      (KeepsForeignChanges actor chain vm ↔ ForeignChangesOnRecord actor chain) := by
  obtain ⟨p₀, hp₀⟩ := htouched
  cases chain with
  | nil => cases hp₀
  | cons head older =>
      have hne : (undoFold actor (head :: older)).touched ≠ [] :=
        List.ne_nil_of_mem (mem_touched_undoFold.mpr hp₀)
      refine ⟨undoneManifest actor head older,
        (undoFold actor (head :: older)).touched.insertionSort (· ≤ ·), ?_, ?_⟩
      · unfold surgicalManifest
        rw [hchain]
        simp only [if_neg hne]
      · constructor
        · intro h p s hp hs
          rw [← stateOf_undoneFiles head.files hp]
          exact (h p s hp hs).1
        · intro h p s hp hs
          rw [← h p s hp hs]
          exact hasState_undoneFiles head.files hp

/-! ## Small histories -/

/-- The history of one file `f`: the actor and the content of each snapshot,
oldest first, `none` standing for a tree without it. -/
def fileHistory (parent : Option Bytes) (n : Nat) :
    List (Option Bytes × Option Bytes) → List (Bytes × Manifest)
  | [] => []
  | (actor, content) :: later =>
      (decimal n, smallManifest parent actor (content.toList.map (smallEntry (str "f")))) ::
        fileHistory (some (decimal n)) (n + 1) later

/-- A fabric whose HEAD is the last snapshot of a history. -/
def historyFabric (st : Store) (history : List (Bytes × Manifest)) : Fs :=
  Fs.build (st.fabricNodes (match history.getLast? with
      | some e => hashHex (padHash e.1)
      | none => []) ++
    history.flatMap fun e => st.blobNodes (str "manifests") (padHash e.1) e.1)

/-- Somebody made `A`, the bot overwrote it with `B`, somebody deleted it. -/
def deletedHistory : List (Bytes × Manifest) :=
  fileHistory none 0 [(none, some (str "A")), (some (str "bot"), some (str "B")), (none, none)]

/-- Somebody made `A`, the bot's snapshot held it unchanged, somebody wrote `C`,
the bot wrote `D`, and somebody put `A` back. -/
def restoredHistory : List (Bytes × Manifest) :=
  fileHistory none 0 [(none, some (str "A")), (some (str "bot"), some (str "A")),
    (none, some (str "C")), (some (str "bot"), some (str "D")), (none, some (str "A"))]

/-- Somebody made `A`, the bot wrote `B`, somebody wrote `C`. -/
def editedHistory : List (Bytes × Manifest) :=
  fileHistory none 0 [(none, some (str "A")), (some (str "bot"), some (str "B")),
    (none, some (str "C"))]

/-- In a history of the file `f` no other path is touched. -/
theorem eq_of_touchedBy {actor p : Bytes} {history : List (Bytes × Manifest)}
    (hf : ∀ e ∈ history, ∀ fe ∈ e.2.files, fe.path = str "f")
    (h : touchedBy actor p (history.map Prod.snd).reverse = true) : p = str "f" := by
  by_contra hne
  have hnone : ∀ m ∈ (history.map Prod.snd).reverse, stateOf m.files p = none := by
    intro m hm
    obtain ⟨e, he, rfl⟩ := List.mem_map.mp (List.mem_reverse.mp hm)
    have habsent : entryAt e.2.files p = none :=
      entryAt_eq_none.mpr fun fe hfe hp => hne (hp.symm.trans (hf e he fe hfe))
    rw [stateOf, habsent]
    rfl
  rw [touchedBy_eq_false hnone] at h
  cases h

/-- The newest foreign change is lost when it is a deletion, and when it puts a
content back that the actor once held without writing it: undo resurrects the
deleted file with `A`, and leaves `C` where `A` was restored. -/
theorem surgicalManifest_loses_foreign_change :
    (∃ vm paths, surgicalManifest (smallCrates deletedHistory [] []) ⟨[str "w"]⟩ (str "bot")
        (historyFabric ⟨[str "w"]⟩ deletedHistory) = .ok (vm, paths) ∧
      ¬ KeepsForeignChanges (str "bot") (deletedHistory.map Prod.snd).reverse vm) ∧
    (∃ vm paths, surgicalManifest (smallCrates restoredHistory [] []) ⟨[str "w"]⟩ (str "bot")
        (historyFabric ⟨[str "w"]⟩ restoredHistory) = .ok (vm, paths) ∧
      ¬ KeepsForeignChanges (str "bot") (restoredHistory.map Prod.snd).reverse vm) := by
  constructor
  · refine ⟨smallManifest (some (decimal 1)) none [smallEntry (str "f") (str "A")] |>
      fun m => { m with message := str "surgical undo of actor 'bot'" }, [str "f"],
      by decide +kernel, ?_⟩
    intro h
    have hstate := (h (str "f") none (by decide +kernel) (by decide +kernel)).1
    exact absurd hstate (by decide +kernel)
  · refine ⟨smallManifest (some (decimal 3)) none [smallEntry (str "f") (str "C")] |>
      fun m => { m with message := str "surgical undo of actor 'bot'" }, [str "f"],
      by decide +kernel, ?_⟩
    intro h
    have hstate := (h (str "f") (some (padHash (str "A"))) (by decide +kernel)
      (by decide +kernel)).1
    exact absurd hstate (by decide +kernel)

/-- An edit that came after the bot's is kept. -/
theorem surgicalManifest_keeps_iff_edited :
    ∃ vm paths, surgicalManifest (smallCrates editedHistory [] []) ⟨[str "w"]⟩ (str "bot")
        (historyFabric ⟨[str "w"]⟩ editedHistory) = .ok (vm, paths) ∧
      KeepsForeignChanges (str "bot") (editedHistory.map Prod.snd).reverse vm := by
  obtain ⟨vm, paths, hundo, hiff⟩ := surgicalManifest_keeps_iff (smallCrates editedHistory [] [])
    ⟨[str "w"]⟩ (str "bot") (historyFabric ⟨[str "w"]⟩ editedHistory)
    (editedHistory.map Prod.snd).reverse (by decide +kernel) ⟨str "f", by decide +kernel⟩
  refine ⟨vm, paths, hundo, hiff.mpr ?_⟩
  intro p s hp hs
  have hf : p = str "f" := eq_of_touchedBy (by decide +kernel) hp
  subst hf
  have hnewest : newestForeignChange (str "bot") (str "f") (editedHistory.map Prod.snd).reverse =
      some (newestWork (str "bot") (str "f") (editedHistory.map Prod.snd).reverse) := by
    decide +kernel
  exact Option.some.inj (hnewest.symm.trans hs)

end Revert

end Respawn
