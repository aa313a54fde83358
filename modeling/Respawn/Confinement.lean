import Respawn.Apply

/-!
# Where a revert can reach

What `apply` touches lies below the worktree (`apply_confined`): the ancestor
check makes a destination the path its components spell, and the removal walk
and the pruning do not follow links.

Inside the worktree the manifest decides, for `validate` accepts paths through
`.respawn` and `.git` that no snapshot contains.  `apply_spares_iff` says when
a revert leaves those alone.
-/

namespace Respawn

open ByteStr FileTree StateLogic

variable (X : Crates) (st : Store)

namespace Revert

/-! ## Below the root -/

/-- `q` lies properly under `root`. -/
def Below (root q : Path) : Prop := root <+: q ∧ q ≠ root

theorem below_append {root rel : Path} (h : rel ≠ []) : Below root (root ++ rel) := by
  refine ⟨List.prefix_append _ _, ?_⟩
  intro heq
  exact h (List.append_right_eq_self.mp heq)

/-- Between `m` and `m'` only things below `root` were touched, and nothing
elsewhere changed. -/
structure Confined (root : Path) (m m' : Machine) : Prop where
  events : ∀ e ∈ m.since m', ∀ p ∈ e.paths, Below root p
  frame : ∀ q, ¬ Below root q → m'.fs.get q = m.fs.get q

/-- A run whose events are below the root is confined. -/
theorem confined_of_ran {root : Path} {m m' : Machine}
    (h : Machine.Ran (fun e => ∀ p ∈ e.paths, Below root p) m m') : Confined root m m' := by
  refine ⟨fun e he => h.since he, ?_⟩
  intro q hq
  exact h.events.get_eq fun e he hmem => hq (he q hmem)

variable {X st}

/-- The directory of the temporary files is below the root. -/
theorem below_tmpDir : Below st.root (tmpDir st) := by
  have hsplit : tmpDir st = st.root ++ [FABRIC_DIR, str "tmp"] := by
    simp [tmpDir, Store.fabricDir]
  rw [hsplit]
  exact below_append (by simp)

/-- Temporary files lie in the worktree. -/
theorem below_ownTmp {T : Path} (hT : Below st.root T) (pid n : Nat) :
    Below st.root (ownTmp T pid n) := by
  obtain ⟨hpre, _⟩ := hT
  refine ⟨hpre.trans (List.prefix_append _ _), ?_⟩
  intro heq
  have hlen := hpre.length_le
  rw [← heq, ownTmp, List.length_append, List.length_singleton] at hlen
  omega

/-- Where the temporary directory is no link it is at its own path. -/
theorem Started.tmpDir_eq {mf : Manifest} {m m₁ : Machine} {T : Path}
    (h : Started X st mf m m₁ T) (hdir : m₁.fs.get (tmpDir st) = some .dir) : T = tmpDir st := by
  have hself : m₁.fs.resolve false (tmpDir st) = .ok (tmpDir st) :=
    Fs.resolve_of_get hdir (by simp)
  have hdot := Fs.resolve_snoc_dot (fun _ _ h => h) hdir hself
  exact Except.ok.inj (h.leads.symm.trans hdot)

/-- **A revert cannot leave the worktree.**  For every manifest, every tree and
every outcome, what `apply` creates, replaces, changes or removes lies
physically below the root. -/
theorem apply_confined (X : Crates) (st : Store) (m : Machine) (mf : Manifest) (keepExtra : Bool)
    (hfabric : m.fs.get st.fabricDir = some .dir)
    (htmp : ∀ t, m.fs.get (tmpDir st) ≠ some (.symlink t)) :
    After (apply X st st.root mf keepExtra m)
      (fun _ m' => Confined st.root m m') (fun _ m' => Confined st.root m m') := by
  have hroot : m.fs.get st.root = some .dir :=
    Fs.dir_of_prefix hfabric (List.prefix_append _ _)
  -- the temporary directory and its ancestors are no links
  have hsplit : tmpDir st = st.fabricDir ++ [str "tmp"] := rfl
  have hlinks : ∀ pre, pre <+: tmpDir st → ∀ t, m.fs.get pre ≠ some (.symlink t) := by
    intro pre hpre t ht
    rw [hsplit] at hpre
    rcases List.prefix_concat_iff.mp hpre with heq | hin
    · rw [heq] at ht
      exact htmp t ht
    · rw [Fs.dir_of_prefix hfabric hin] at ht
      cases ht
  have hnames : ∀ n ∈ tmpDir st, ValidName n := by
    intro n hn
    rw [hsplit] at hn
    rcases List.mem_append.mp hn with hn | hn
    · exact m.fs.valid_of_get hfabric hn
    · rw [List.mem_singleton.mp hn]
      decide
  have hmade := createDirAll_after (w := m.toWorld) hnames hlinks
  have hbelow : ∀ q, q <+: tmpDir st → m.fs.get q = none → Below st.root q := by
    intro q hq hnone
    rcases List.prefix_or_prefix_of_prefix hq below_tmpDir.1 with hin | hunder
    · rw [Fs.dir_of_prefix hroot hin] at hnone
      cases hnone
    · refine ⟨hunder, ?_⟩
      intro heq
      rw [heq, hroot] at hnone
      cases hnone
  have hmkdirs : ∀ w, MadeDirs (tmpDir st) m.toWorld w →
      World.Extends (fun e => ∀ p ∈ e.paths, Below st.root p) m.toWorld w := by
    intro w hw
    apply hw.events.mono
    intro e he p hp
    obtain ⟨q, rfl, hq, hnone⟩ := he
    have hpq : p = q := by simpa [Event.paths] using hp
    rw [hpq]
    exact hbelow q hq hnone
  have hran : After (apply X st st.root mf keepExtra m) _ _ := apply_after hroot
    (hmade.mono (fun _ w h => hmkdirs w h.1) fun _ w h => hmkdirs w h) ?_ ?_
  · exact hran.mono (fun _ _ h => confined_of_ran h) fun _ _ h => confined_of_ran h
  · intro e he p hp
    obtain ⟨m₁, T, pre, fe, post, outs, s, hstart, _, _, _, he⟩ := he
    have hT : Below st.root T := by
      obtain ⟨w, hw, hm₁⟩ := io_eq_ok.mp hstart.made
      rw [hw] at hmade
      rw [hstart.tmpDir_eq (by rw [hm₁]; exact hmade.2)]
      exact below_tmpDir
    rcases he with ⟨q, rfl, hpre, hne⟩ | ⟨n, he⟩ | ⟨rel, _, ⟨n, rfl⟩ | ⟨mode, rfl⟩⟩
    · have hpq : p = q := by simpa [Event.paths] using hp
      exact hpq ▸ ⟨hpre, hne⟩
    · rw [he.paths hp]
      exact below_ownTmp hT _ _
    · rcases List.mem_cons.mp hp with heq | hin
      · rw [heq]
        exact below_ownTmp hT _ _
      · rw [List.mem_singleton.mp hin]
        exact below_append rel.nonempty
    · rw [List.mem_singleton.mp hp]
      exact below_append rel.nonempty
  · intro e he p hp
    obtain ⟨rel, hne, _, rfl | rfl⟩ := he
    · rw [List.mem_singleton.mp hp]
      exact below_append hne
    · rw [List.mem_singleton.mp hp]
      exact below_append hne

/-- A worktree `w` with a link that leads out of it, and no snapshot. -/
def linkedFabric : Fs :=
  Fs.build (([str "out"], .dir) :: Store.fabricNodes ⟨[str "w"]⟩ [] ++
    [([str "w", str "link"], .symlink (str "/out"))])

/-- A manifest whose only file lies behind that link. -/
def throughLink : Manifest := smallManifest none none [smallEntry (str "link/a") (str "A")]

/-- A snapshot with a path through a link changes nothing behind the link. -/
theorem apply_confined_linked :
    After (apply (smallCrates [] [] []) ⟨[str "w"]⟩ [str "w"] throughLink false
        (Machine.start linkedFabric))
      (fun _ m' => Confined [str "w"] (Machine.start linkedFabric) m')
      (fun _ m' => Confined [str "w"] (Machine.start linkedFabric) m') := by
  apply apply_confined (smallCrates [] [] []) ⟨[str "w"]⟩ (Machine.start linkedFabric)
    throughLink false (by decide +kernel)
  intro t
  have hnone : (Machine.start linkedFabric).fs.get (tmpDir ⟨[str "w"]⟩) = none := by
    decide +kernel
  rw [hnone]
  simp

/-! ## Files of the fabric and of git -/

/-- Does the event create, change, replace or remove a file? -/
def onFile : Event → Bool
  | .mkdir _ | .rmdir _ => false
  | _ => true

/-- A path with an excluded component under the root. -/
def Internal (root p : Path) : Prop := ∃ rel, p = root ++ rel ∧ excluded rel = true

/-- A temporary file of this process, in the directory to which `.respawn/tmp`
leads once it is made. -/
def IsOwnTmp (st : Store) (m : Machine) (p : Path) : Prop :=
  ∃ m₁ T n, io (createDirAll (tmpDir st)) m = .ok () m₁ ∧
    m₁.fs.resolve false (tmpDir st ++ [dot]) = .ok T ∧ p = ownTmp T m.pid n

/-- Between `m` and `m'` no file of the fabric or of git was created, changed,
replaced or removed, but for the process's own temporary files. -/
def SparesInternals (st : Store) (m m' : Machine) : Prop :=
  ∀ e ∈ m.since m', onFile e = true → ∀ p ∈ e.paths, Internal st.root p → IsOwnTmp st m p

variable (X st)

/-- No entry with an internal destination can be replaced when its turn comes. -/
def InternalsBlocked (mf : Manifest) (m : Machine) : Prop :=
  ∀ m₁ T pre fe post outs s rel, Started X st mf m m₁ T → mf.files = pre ++ fe :: post →
    writePass X st st.root pre m₁ = .ok outs s → Replaceable X st fe rel s →
      excluded rel.comps = true → IsOwnTmp st m (st.root ++ rel.comps)

variable {X st}

/-- A path from the root is internal as its components say. -/
theorem internal_append {root rel : Path} : Internal root (root ++ rel) ↔ excluded rel = true := by
  constructor
  · intro h
    obtain ⟨r, heq, hex⟩ := h
    rw [List.append_cancel_left heq]
    exact hex
  · intro h
    exact ⟨rel, rfl, h⟩

/-- What an entry has done by its turn is among the events of the whole revert. -/
theorem ran_of_written {m m₁ s t : Machine} {mf : Manifest} {keepExtra : Bool} {T : Path}
    {pre post : List FileEntry} {fe : FileEntry} {outs : List Bytes} {out : Option Bytes}
    (hroot : m.fs.get st.root = some .dir) (hstart : Started X st mf m m₁ T)
    (hfiles : mf.files = pre ++ fe :: post) (hpre : writePass X st st.root pre m₁ = .ok outs s)
    (hfe : writeEntry X st st.root fe s = .ok out t) :
    Machine.Ran (fun _ => True) t (finalState (apply X st st.root mf keepExtra m)) := by
  have hready := hstart.ready hroot
  have hreadyS := hready.grow (writePass_ok hready hpre).2.1
  have hentry : After (writeEntry X st st.root fe s) _ _ := writeEntry_after hreadyS
  rw [hfe] at hentry
  have hreadyT := hreadyS.grow hentry.1.grows
  have hwrites : After (writePass X st st.root mf.files m₁)
      (fun _ m₂ => Ready st T m₂.fs ∧ Machine.Ran (fun _ => True) t m₂)
      (fun _ m₂ => Machine.Ran (fun _ => True) t m₂) := by
    rw [hfiles]
    apply After.collectRest hpre
    have hfe' : After (writeEntry X st st.root fe s) (fun _ u => u = t)
        (fun _ m₂ => Machine.Ran (fun _ => True) t m₂) := by
      rw [hfe]
      exact rfl
    apply After.bind hfe'
    intro _ u hu
    subst hu
    have hrest : After (writePass X st st.root post u) _ _ :=
      writePass_after (P := fun _ => True) hreadyT
      fun _ _ _ _ _ _ _ _ _ _ _ => trivial
    apply After.bind (hrest.mono (fun _ _ h => h) fun _ _ h => h.2)
    intro _ m₂ h₂
    exact ⟨hreadyT.grow h₂.1, h₂.2⟩
  have hall : After (apply X st st.root mf keepExtra m)
      (fun _ m' => Machine.Ran (fun _ => True) t m')
      (fun _ m' => Machine.Ran (fun _ => True) t m') := by
    rw [apply_of_made hstart.checked hstart.made]
    apply After.bind hwrites
    intro restored m₂ h₂
    apply (tidy_after h₂.1.root).mono
    · intro _ m₃ h₃
      exact h₂.2.trans (h₃.mono fun _ _ => trivial)
    · intro _ _ h
      exact h.elim
  exact hall.final

/-- **When a revert leaves the files of the fabric and of git alone.**  It does
exactly when each entry with an internal destination is out of reach, refused,
or has its content in place already, in the state in which its turn comes. -/
theorem apply_spares_iff (X : Crates) (st : Store) (m : Machine) (mf : Manifest)
    (keepExtra : Bool) (hroot : m.fs.get st.root = some .dir) :
    SparesInternals st m (finalState (apply X st st.root mf keepExtra m)) ↔
      InternalsBlocked X st mf m := by
  constructor
  · intro h m₁ T pre fe post outs s rel hstart hfiles hpre hrepl hex
    have hready := hstart.ready hroot
    have hreadyS := hready.grow (writePass_ok hready hpre).2.1
    have hentry : After (writeEntry X st st.root fe s) _ _ := writeEntry_after hreadyS
    cases hfe : writeEntry X st st.root fe s with
    | error e t =>
        rw [hfe] at hentry
        exact absurd hrepl (hentry.2 rel)
    | ok out t =>
        rw [hfe] at hentry
        obtain ⟨hentered, rel', hwritten, ⟨_, n, hrenamed⟩ | ⟨_, hnot, _⟩⟩ := hentry
        · have hrel : rel' = rel := Except.ok.inj (hwritten.path.symm.trans hrepl.path)
          subst hrel
          have hafter : Machine.Ran _ t (finalState (apply X st st.root mf keepExtra m)) :=
            ran_of_written hroot hstart hfiles hpre hfe
          have hmade := hstart.madeSome
          have hran₁ : Machine.Ran (fun _ => True) m m₁ := by
            obtain ⟨w, hw, rfl⟩ := io_eq_ok.mp hstart.made
            exact Machine.Ran.of_world (hmade.events.mono fun _ _ => trivial)
          have hwrite : After (writePass X st st.root pre m₁) _ _ :=
            writePass_after (P := fun _ => True) hready
            fun _ _ _ _ _ _ _ _ _ _ _ => trivial
          rw [hpre] at hwrite
          have hranS := hran₁.trans hwrite.2
          have hfinal := (hentered.ran.mono (fun _ _ => trivial)).trans hafter
          refine h (.rename (ownTmp T s.pid n) (st.root ++ rel'.comps)) ?_ rfl _
            (by simp [Event.paths]) (internal_append.mpr hex)
          rw [hranS.since_trans hfinal, hentered.ran.since_trans hafter]
          exact List.mem_append_right _ (List.mem_append_left _ hrenamed)
        · exact absurd hrepl (hnot rel)
  · intro h
    have hmake : After (createDirAll (tmpDir st) m.toWorld)
        (fun _ w => World.Extends (fun e => onFile e = true → ∀ p ∈ e.paths,
          Internal st.root p → IsOwnTmp st m p) m.toWorld w)
        (fun _ w => World.Extends (fun e => onFile e = true → ∀ p ∈ e.paths,
          Internal st.root p → IsOwnTmp st m p) m.toWorld w) := by
      have hdirs : ∀ w, MadeSome m.toWorld w → World.Extends (fun e => onFile e = true →
          ∀ p ∈ e.paths, Internal st.root p → IsOwnTmp st m p) m.toWorld w := by
        intro w hw
        apply hw.events.mono
        intro e he hfile
        obtain ⟨q, rfl⟩ := he
        cases hfile
      exact createDirAll_made.mono (fun _ w h => hdirs w h.1) fun _ w h => hdirs w h
    have hran : After (apply X st st.root mf keepExtra m) _ _ := apply_after hroot hmake ?_ ?_
    · exact (hran.mono (fun _ _ h e he => h.since he) fun _ _ h e he => h.since he).final
    · intro e he hfile p hp hint
      obtain ⟨m₁, T, pre, fe, post, outs, s, hstart, hfiles, hpre, hpid, he⟩ := he
      have hown : ∀ n, IsOwnTmp st m (ownTmp T s.pid n) := fun n =>
        ⟨m₁, T, n, hstart.made, hstart.leads, by rw [hpid]⟩
      have hdest : ∀ rel, Replaceable X st fe rel s → p = st.root ++ rel.comps →
          IsOwnTmp st m p := by
        intro rel hrepl heq
        rw [heq] at hint ⊢
        exact h m₁ T pre fe post outs s rel hstart hfiles hpre hrepl (internal_append.mp hint)
      rcases he with ⟨q, rfl, _⟩ | ⟨n, he⟩ | ⟨rel, hrepl, ⟨n, rfl⟩ | ⟨mode, rfl⟩⟩
      · cases hfile
      · rw [he.paths hp]
        exact hown n
      · rcases List.mem_cons.mp hp with heq | hin
        · rw [heq]
          exact hown n
        · exact hdest rel hrepl (List.mem_singleton.mp hin)
      · exact hdest rel hrepl (List.mem_singleton.mp hp)
    · intro e he hfile p hp hint
      obtain ⟨rel, hne, hex, rfl | rfl⟩ := he
      · rw [List.mem_singleton.mp hp, internal_append, hex] at hint
        cases hint
      · cases hfile

/-- A fabric that holds the object `evil` and has no snapshot. -/
def evilFabric : Fs :=
  Fs.build (Store.fabricNodes ⟨[str "w"]⟩ [] ++
    Store.blobNodes ⟨[str "w"]⟩ (str "objects") (padHash (str "evil")) (str "evil"))

/-- A manifest that names the fabric's HEAD as one of its files. -/
def hostileManifest : Manifest :=
  smallManifest none none [smallEntry (str ".respawn/HEAD") (str "evil")]

/-- Applying it puts a temporary file in HEAD's place. -/
theorem hostileManifest_trespasses :
    ¬ SparesInternals ⟨[str "w"]⟩ (Machine.start evilFabric)
      (finalState (apply (smallCrates [] [] []) ⟨[str "w"]⟩ [str "w"] hostileManifest false
        (Machine.start evilFabric))) := by
  intro h
  obtain ⟨m₁, T, n, _, _, heq⟩ := h
    (.rename (ownTmp (tmpDir ⟨[str "w"]⟩) 1 0) [str "w", FABRIC_DIR, str "HEAD"])
    (by decide +kernel) rfl [str "w", FABRIC_DIR, str "HEAD"] (by simp [Event.paths])
    ⟨[FABRIC_DIR, str "HEAD"], rfl, by decide +kernel⟩
  -- the last component would be a temporary name, which starts with a dot
  have hlast := congrArg List.getLast? heq
  obtain ⟨rest, hrest⟩ : ∃ rest, tmpName (Machine.start evilFabric).pid n (str "revert") =
      46 :: rest := ⟨_, rfl⟩
  have hhead : str "HEAD" = 46 :: rest := by simpa [ownTmp, hrest] using hlast
  exact absurd (congrArg List.head? hhead) (by simp; decide)

/-- A manifest that passes `validate` replaces HEAD. -/
theorem apply_replaces_head : hostileManifest.validate = .ok () ∧
    ¬ SparesInternals ⟨[str "w"]⟩ (Machine.start evilFabric)
      (finalState (apply (smallCrates [] [] []) ⟨[str "w"]⟩ [str "w"] hostileManifest false
        (Machine.start evilFabric))) :=
  ⟨by decide +kernel, hostileManifest_trespasses⟩

/-- Nothing blocks the entry that names HEAD. -/
theorem apply_spares_iff_hostile :
    ¬ InternalsBlocked (smallCrates [] [] []) ⟨[str "w"]⟩ hostileManifest
      (Machine.start evilFabric) := by
  intro hblocked
  exact hostileManifest_trespasses ((apply_spares_iff (smallCrates [] [] []) ⟨[str "w"]⟩
    (Machine.start evilFabric) hostileManifest false (by decide +kernel)).mpr hblocked)

end Revert

end Respawn
