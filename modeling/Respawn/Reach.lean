import Respawn.Confinement
import Respawn.Contents

/-!
# What a command touches in the fabric

The fabric directory has one name for each kind of record.  A command touches
what lies under the names it works with (`Within`), besides temporary files;
only a revert can reach the others, through a manifest whose entries lie inside
`.respawn`: it touches its temporary directory, the worktree, the destinations
of its entries and the directories it makes for them (`Aims`).
-/

namespace Respawn

open ByteStr FileTree StateLogic

variable {X : Crates} {st : Store} {m : Machine}

/-! ## Names of the fabric directory -/

/-- A node under one of these names, or under that of a temporary file. -/
def Store.Within (st : Store) (names : List Name) (q : Path) : Prop :=
  ∃ n rest, q = st.fabricDir ++ n :: rest ∧ (n ∈ names ∨ ∃ pid k tag, n = tmpName pid k tag)

namespace Store

/-- Within fewer names is within more. -/
theorem Within.mono {names names' : List Name} {q : Path} (h : st.Within names q)
    (hnames : ∀ n ∈ names, n ∈ names') : st.Within names' q := by
  obtain ⟨n, rest, rfl, hn | htmp⟩ := h
  · exact ⟨n, rest, rfl, Or.inl (hnames n hn)⟩
  · exact ⟨n, rest, rfl, Or.inr htmp⟩

theorem Within.fabric {names : List Name} {q : Path} (h : st.Within names q) :
    st.fabricDir <+: q := by
  obtain ⟨n, rest, rfl, _⟩ := h
  exact List.prefix_append _ _

/-- What lies on the way to a node, below the fabric directory. -/
theorem within_of_prefix {names : List Name} {n : Name} {rest q : Path} (hn : n ∈ names)
    (hdir : st.fabricDir <+: q) (hne : q ≠ st.fabricDir)
    (hq : q <+: st.fabricDir ++ n :: rest) : st.Within names q := by
  obtain ⟨tail, rfl⟩ := hdir
  have htail := (List.prefix_append_right_inj st.fabricDir).mp hq
  cases tail with
  | nil => exact absurd (List.append_nil _) hne
  | cons a tail => exact ⟨a, tail, rfl, Or.inl ((List.cons_prefix_cons.mp htail).1 ▸ hn)⟩

/-- A record whose name is none of these is not touched. -/
theorem not_within {names : List Name} {n : Name} {rest : Path} (hn : n ∉ names)
    (hdot : n.head? ≠ some 46) : ¬ st.Within names (st.fabricDir ++ n :: rest) := by
  intro h
  obtain ⟨n', rest', heq, hin | ⟨pid, k, tag, htmp⟩⟩ := h
  · exact hn ((List.cons.inj (List.append_cancel_left heq)).1 ▸ hin)
  · rw [(List.cons.inj (List.append_cancel_left heq)).1, htmp] at hdot
    exact hdot rfl

/-- From any real fabric the program touches only nodes with `S`, whatever its
outcome. -/
def Touching {α : Type} (st : Store) (S : Path → Prop) (x : Sys α) : Prop :=
  ∀ m : Machine, st.Real m.fs → After (x m) (fun _ m' => st.Touched S m.fs m'.fs)
    (fun _ m' => st.Touched S m.fs m'.fs)

namespace Touching

variable {α β : Type} {S S' : Path → Prop} {x : Sys α}

theorem mono (h : st.Touching S x) (hS : ∀ q, S q → S' q) : st.Touching S' x := by
  intro m hreal
  exact (h m hreal).mono (fun _ _ h => h.mono hS) fun _ _ h => h.mono hS

/-- What touches places step by step touches them in all. -/
theorem bind {f : α → Sys β} (hx : st.Touching S x) (hf : ∀ a, st.Touching S (f a)) :
    st.Touching S (x >>= f) := by
  intro m hreal
  apply After.bind (hx m hreal)
  intro a m₁ h₁
  exact (hf a m₁ h₁.real).mono (fun _ _ h => h₁.trans h) fun _ _ h => h₁.trans h

/-- What leaves the disk alone. -/
theorem of_same (h : ∀ m, After (x m) (fun _ m' => m'.fs = m.fs) (fun _ m' => m'.fs = m.fs)) :
    st.Touching S x := by
  intro m hreal
  apply (h m).mono
  · intro _ m' hfs
    rw [hfs]
    exact Touched.refl hreal
  · intro _ m' hfs
    rw [hfs]
    exact Touched.refl hreal

theorem pure (a : α) : st.Touching S (pure a : Sys α) := of_same fun _ => rfl

theorem throw (e : Error) : st.Touching S (throw e : Sys α) := of_same fun _ => rfl

theorem look {f : Fs → Except Error α} : st.Touching S (look f) :=
  of_same fun _ => after_look (fun _ _ => rfl) fun _ _ => rfl

end Touching

/-- What a program touches is added to what was touched before it. -/
theorem Touched.andThen {α : Type} {S S' : Path → Prop} {x : Sys α} {fs : Fs}
    (h : st.Touched S fs m.fs) (hx : st.Touching S' x) (hS : ∀ q, S' q → S q) :
    After (x m) (fun _ m' => st.Touched S fs m'.fs) (fun _ m' => st.Touched S fs m'.fs) :=
  (hx m h.real).mono (fun _ _ h' => h.trans (h'.mono hS)) fun _ _ h' => h.trans (h'.mono hS)

/-- Replacing a record that lies in the fabric directory itself. -/
theorem replaceFile_touching {n tag : Name} {data : Bytes} (hname : ValidName n)
    (htag : ∀ pid k, ValidName (tmpName pid k tag)) :
    st.Touching (st.Within [n]) (replaceFile tag (st.fabricDir ++ [n]) data) := by
  intro m hreal
  have hdrop : (st.fabricDir ++ [n]).dropLast = st.fabricDir := List.dropLast_concat
  apply Touched.of_replaceFile hreal (by rw [hdrop]) (by simp) (Purge.record_names hreal hname)
    (htag m.pid)
  · intro q hq hne hpre
    exact within_of_prefix (List.mem_singleton_self n) hq hne hpre
  · intro k
    exact ⟨_, [], by rw [hdrop], Or.inr ⟨_, _, _, rfl⟩⟩

/-- The lock file. -/
theorem tryLock_touching : st.Touching (st.Within [str "lock"]) st.tryLock := by
  intro m hreal
  have hnames := Purge.record_names hreal (n := str "lock") (by decide)
  have hS : st.Within [str "lock"] (st.fabricDir ++ [str "lock"]) :=
    ⟨_, [], rfl, Or.inl (by simp)⟩
  unfold tryLock
  rw [bind_apply]
  cases hopen : openAppend (st.fabricDir ++ [str "lock"]) m.toWorld with
  | error e w =>
      simp only [io, hopen]
      rw [openAppend_error hopen]
      exact Touched.refl hreal
  | ok q w =>
      simp only [io, hopen]
      obtain ⟨hres, ⟨_, rfl⟩ | ⟨hnone, rfl⟩⟩ := openAppend_ok hopen
      · exact Touched.refl hreal
      · have hq := hreal.resolve_eq (List.prefix_append _ _) hnames hres
        subst hq
        have hget : ∀ r, (m.fs.exec (.create _ defaultMode m.clock)).get r = _ := fun r =>
          Fs.get_put (Fs.room_of_reached (Fs.resolve_reached hres) hnone) _ r
        exact Touched.of_file hreal hS (by simp [hnone]) hget

/-- From `fs` to `fs'` at most empty files were made, where nothing was. -/
structure AddsEmpty (fs fs' : Fs) : Prop where
  get : ∀ q, fs'.get q = fs.get q ∨
    fs.get q = none ∧ ∃ d, fs'.get q = some (.file d) ∧ d.bytes = []
  sealed : fs'.sealed = fs.sealed

theorem AddsEmpty.refl (fs : Fs) : AddsEmpty fs fs := ⟨fun _ => Or.inl rfl, rfl⟩

/-- Taking the lock makes at most the lock file. -/
theorem tryLock_addsEmpty (m : Machine) : After (st.tryLock m)
    (fun _ m' => AddsEmpty m.fs m'.fs) (fun _ m' => AddsEmpty m.fs m'.fs) := by
  unfold tryLock
  rw [bind_apply]
  cases hopen : openAppend (st.fabricDir ++ [str "lock"]) m.toWorld with
  | error e w =>
      simp only [io, hopen]
      rw [openAppend_error hopen]
      exact AddsEmpty.refl _
  | ok q w =>
      simp only [io, hopen]
      obtain ⟨hres, ⟨_, rfl⟩ | ⟨hnone, rfl⟩⟩ := openAppend_ok hopen
      · exact AddsEmpty.refl _
      · have hget : ∀ r, (m.fs.exec (.create q defaultMode m.clock)).get r = _ := fun r =>
          Fs.get_put (Fs.room_of_reached (Fs.resolve_reached hres) hnone) _ r
        refine ⟨?_, Fs.sealed_exec fun p hp => by cases hp⟩
        intro r
        by_cases hr : r = q
        · subst hr
          exact Or.inr ⟨hnone, _, (hget r).trans (if_pos rfl), rfl⟩
        · exact Or.inl ((hget r).trans (if_neg hr))

/-- What is ignored does not depend on empty files. -/
theorem AddsEmpty.ignorePatterns_eq {fs fs' : Fs} (h : AddsEmpty fs fs') (root : Path) :
    Snapshot.ignorePatterns root fs' = Snapshot.ignorePatterns root fs := by
  have hshape : Fs.SameShape fs fs' := by
    intro q
    rcases h.get q with heq | ⟨hnone, d, hd, _⟩
    · exact Or.inl heq
    · exact Or.inr ⟨Or.inl hnone, Or.inr ⟨d, hd⟩⟩
  unfold Snapshot.ignorePatterns Fs.readToString Fs.read Fs.metadata
  cases hres : fs.resolve true (root ++ [str ".fabricignore"]) with
  | error e =>
      cases hres' : fs'.resolve true (root ++ [str ".fabricignore"]) with
      | error e' => rfl
      | ok q =>
          rw [Fs.resolve_shape hshape.symm hres'] at hres
          cases hres
  | ok q =>
      rw [Fs.resolve_shape hshape hres]
      rcases h.get q with heq | ⟨hnone, d, hd, hempty⟩
      · simp only [heq]
      · simp only [hnone, hd, hempty]
        decide

/-- Moving HEAD touches HEAD. -/
theorem setHead_touching (id : Option Hash) :
    st.Touching (st.Within [str "HEAD"]) (st.setHead id) := by
  intro m hreal
  have hwithin : ∀ q, (∃ n, q = st.fabricDir ++ [n] ∧
      (n = str "HEAD" ∨ ∃ k, n = tmpName m.pid k (str "HEAD"))) → st.Within [str "HEAD"] q := by
    intro q hq
    obtain ⟨n, rfl, rfl | ⟨k, rfl⟩⟩ := hq
    · exact ⟨_, [], rfl, Or.inl (by simp)⟩
    · exact ⟨_, [], rfl, Or.inr ⟨_, _, _, rfl⟩⟩
  exact (setHead_after hreal).mono (fun _ _ h => h.mono hwithin) fun _ _ h => h.mono hwithin

end Store

/-- The audit log. -/
theorem Audit.record_touching (event detail : Bytes) :
    st.Touching (st.Within [str "audit.jsonl"]) (Audit.record X st event detail) := by
  intro m hreal
  apply (Purge.record_after hreal).mono
  · intro _ m' h
    refine h.mono ?_
    intro q hq
    exact ⟨_, [], hq, Or.inl (by simp)⟩
  · intro _ m' hfs
    rw [hfs]
    exact Store.Touched.refl hreal

/-- The fabric's identity. -/
theorem Anchor.fabricId_touching :
    st.Touching (st.Within [str "fabric_id"]) (Anchor.fabricId st) := by
  unfold Anchor.fabricId
  apply Store.Touching.look.bind
  intro found
  cases found with
  | ok s => exact Store.Touching.pure _
  | error e =>
      simp only
      split
      · apply Store.Touching.bind
        · apply Store.Touching.of_same
          intro m
          unfold randomHex32
          split <;> rfl
        intro id
        apply Store.Touching.bind
        · exact Store.replaceFile_touching (by decide)
            fun _ _ => validName_tmpName (by decide) (by decide)
        · intro _
          exact Store.Touching.pure _
      · exact Store.Touching.throw _

theorem Sync.Reaches.within {q : Path} (h : Sync.Reaches st q) :
    st.Within [str "objects", str "manifests", str "remotes"] q := by
  obtain ⟨n, rest, rfl, hn⟩ := h
  exact ⟨n, rest, rfl, Or.inl hn⟩

/-- A pull touches the blobs and the records of remotes. -/
theorem Sync.pull_touching (addr : Bytes) (peer : Peer) :
    st.Touching (st.Within [str "objects", str "manifests", str "remotes"])
      (Sync.pull X st addr peer) := by
  intro m hreal
  exact (pull_touches hreal).mono (fun _ _ h => h.mono fun _ hq => hq.within)
    fun _ _ h => h.mono fun _ hq => hq.within

namespace Snapshot

/-- What snapshots work with; no snapshot uses `remotes`, but pulls store blobs
in the same way. -/
abbrev workNames : List Name := [str "objects", str "manifests", str "remotes", str "HEAD"]

/-- Storing a manifest touches the blobs and HEAD. -/
theorem storeManifest_touching (manifest : Manifest) :
    st.Touching (st.Within workNames) (storeManifest X st manifest) := by
  unfold storeManifest Store.putManifest
  apply Store.Touching.bind
  · apply Store.Touching.bind
    · intro m hreal
      exact (Sync.putBlob_touches hreal (by decide) (by decide)).mono
        (fun _ _ h => h.mono fun _ hq => hq.within.mono (by decide))
        fun _ _ h => h.mono fun _ hq => hq.within.mono (by decide)
    · intro _
      exact Store.Touching.pure _
  · intro id
    apply ((Store.setHead_touching (some id)).mono fun _ hq => hq.mono (by decide)).bind
    intro _
    exact Store.Touching.pure _

/-- A snapshot of the worktree touches objects, manifests and HEAD. -/
theorem createFromActor_touching (message : Bytes) (actor : Option Bytes) :
    st.Touching (st.Within workNames) (createFromActor X st st.root message actor) := by
  unfold createFromActor
  apply Store.Touching.bind
  · intro m hreal
    have hobjects : ∀ (S : Hash → Prop) (m' : Machine), StoreStep st S m m' →
        st.Touched (st.Within workNames) m.fs m'.fs := by
      intro S m' h
      refine h.mono ?_
      intro q hq
      obtain ⟨rest, rfl⟩ := hq.1
      exact ⟨str "objects", rest, by simp, Or.inl (by decide)⟩
    have hbuild : After (buildManifest X st st.root message actor m) _ _ :=
      buildManifest_after hreal
    apply hbuild.mono
    · intro _ m₁ h
      obtain ⟨_, _, _, _, hstep⟩ := h
      exact hobjects _ m₁ hstep
    · intro _ m₁ h
      rcases h with rfl | ⟨_, _, hstep⟩
      · exact Store.Touched.refl hreal
      · exact hobjects _ m₁ hstep
  · exact storeManifest_touching

end Snapshot

/-! ## Reverts -/

/-- The node is the destination of an entry, or a directory that is missing on
the way to one. -/
def Revert.Aims (root : Path) (files : List FileEntry) (fs : Fs) (q : Path) : Prop :=
  ∃ fe ∈ files, ∃ dest, destination root fe = some dest ∧
    (q = dest ∨ q <+: dest ∧ fs.get q = none)

/-- What a revert can touch: the worktree, its temporary directory, and what
its entries aim at. -/
def Revert.Touches (st : Store) (files : List FileEntry) (fs : Fs) (q : Path) : Prop :=
  ¬ st.fabricDir <+: q ∨ tmpDir st <+: q ∨ Aims st.root files fs q

/-- A file of the fabric at which no entry aims is not touched. -/
theorem Revert.not_touches {files : List FileEntry} {fs : Fs} {n : Name} {d : FileData}
    (hn : n ≠ str "tmp") (hfile : fs.get (st.fabricDir ++ [n]) = some (.file d))
    (hspares : ∀ fe ∈ files, destination st.root fe ≠ some (st.fabricDir ++ [n])) :
    ¬ Touches st files fs (st.fabricDir ++ [n]) := by
  intro h
  rcases h with hout | htmp | ⟨fe, hfe, dest, hdest, heq | ⟨_, hnone⟩⟩
  · exact hout (List.prefix_append _ _)
  · have heq := htmp.eq_of_length (by simp [tmpDir])
    exact hn (List.cons.inj (List.append_cancel_left heq)).1.symm
  · exact hspares fe hfe (heq ▸ hdest)
  · rw [hfile] at hnone
    cases hnone

/-- A fabric that grows stays real. -/
theorem Store.Real.grow {fs fs' : Fs} (h : st.Real fs) (hgrows : Fs.Grows fs fs') :
    st.Real fs' := by
  refine ⟨hgrows.dirs _ h.dir, ?_⟩
  intro q t hq ht
  have hlink := hgrows.links q t (Fs.leaf_eq_some _ |>.mpr ⟨ht, by simp⟩)
  exact h.links q t hq (Fs.leaf_eq_some _ |>.mp hlink).1

namespace Revert

variable {files : List FileEntry} {fs₀ : Fs}

/-- An entry touches its temporary file, its destination and what is missing on
the way there. -/
theorem writeEntry_touches {fe : FileEntry} {s : Machine} (hfe : fe ∈ files)
    (h : st.Touched (Touches st files fs₀) fs₀ s.fs) (hready : Ready st (tmpDir st) s.fs) :
    After (writeEntry X st st.root fe s)
      (fun _ s' => st.Touched (Touches st files fs₀) fs₀ s'.fs ∧ Ready st (tmpDir st) s'.fs)
      (fun _ s' => st.Touched (Touches st files fs₀) fs₀ s'.fs) := by
  unfold writeEntry
  rw [bind_apply]
  cases hlook : look (resolveDest st.root fe.path) s with
  | error e s₀ =>
      obtain ⟨_, rfl⟩ := look_eq_error.mp hlook
      exact h
  | ok rel s₀ =>
      obtain ⟨hok, rfl⟩ := look_eq_ok.mp hlook
      obtain ⟨hpath, hclear⟩ := (resolveDest_eq_ok hready.root).mp hok
      have hdest : destination st.root fe = some (st.root ++ rel.comps) := by
        simp only [destination, hpath]
      obtain ⟨s₁, hmake, hparent, hmade, _, _, _⟩ :=
        makeParents hready.root (valid_under hready.root rel) hclear rel.nonempty
      have hgrows := hmade.adds.newDirs.grows
      have hready₁ := hready.grow hgrows
      have h₁ : st.Touched (Touches st files fs₀) fs₀ s₁.fs := by
        refine ⟨h.real.grow hgrows, ?_⟩
        intro q hq
        rcases hmade.adds q with heq | ⟨hpre, hnone, _⟩
        · exact heq.trans (h.frame q hq)
        · have hnone₀ : fs₀.get q = none := (h.frame q hq).symm.trans hnone
          have hup : st.root ++ rel.comps.dropLast <+: st.root ++ rel.comps :=
            (List.prefix_append_right_inj _).mpr (List.dropLast_prefix _)
          exact absurd (Or.inr (Or.inr ⟨fe, hfe, _, hdest, Or.inr ⟨hpre.trans hup, hnone₀⟩⟩)) hq
      simp only
      rw [bind_apply, hmake]
      simp only
      apply After.bind (P := fun _ s' => s' = s₁)
      · exact after_look (fun _ _ => rfl) fun _ _ => h₁
      intro needed s₂ hs₂
      subst hs₂
      cases needed with
      | false => exact ⟨h₁, hready₁⟩
      | true =>
          have hmat : After (materialize X st (rel.under st.root) fe s₂) _ _ :=
            materialize_after hready₁ hparent
          simp only [if_true]
          apply After.bind (P := fun _ s' => st.Touched (Touches st files fs₀) fs₀ s'.fs ∧
            Ready st (tmpDir st) s'.fs)
          · apply hmat.mono
            · intro _ s₃ h₃
              obtain ⟨_, _, hplaced⟩ := h₃
              refine ⟨⟨h₁.real.grow hplaced.grows, ?_⟩, hready₁.grow hplaced.grows⟩
              intro q hq
              have hne : q ≠ st.root ++ rel.comps := by
                intro heq
                exact hq (Or.inr (Or.inr ⟨fe, hfe, _, hdest, Or.inl heq⟩))
              exact (hplaced.frame q hne).trans (h₁.frame q hq)
            · intro _ s₃ h₃
              refine ⟨h₁.real.grow h₃.1.grows, ?_⟩
              intro q hq
              refine (h₃.1.ran.events.get_eq fun e he hmem => ?_).trans (h₁.frame q hq)
              have heq := he.paths hmem
              exact hq (Or.inr (Or.inl (heq ▸ List.prefix_append _ _)))
          · intro _ s₃ h₃
            exact h₃

/-- Nothing that the cleaning up removes lies in the fabric. -/
theorem not_fabric_of_not_excluded {rel : Path} (h : excluded rel = false) :
    ¬ st.fabricDir <+: st.root ++ rel := by
  intro hpre
  have hex := Snapshot.excluded_of_fabric hpre
  rw [show Snapshot.excluded rel = excluded rel from rfl, h] at hex
  cases hex

/-- The cleaning up has no event in the fabric. -/
theorem cleanEvent_outside {e : Event} (h : CleanEvent st.root e) {q : Path}
    (hq : st.fabricDir <+: q) : q ∉ e.paths := by
  obtain ⟨rel, _, hex, rfl | rfl⟩ := h
  · intro hmem
    exact not_fabric_of_not_excluded hex (List.mem_singleton.mp hmem ▸ hq)
  · intro hmem
    exact not_fabric_of_not_excluded hex (List.mem_singleton.mp hmem ▸ hq)

/-- **What a revert touches**, whatever its outcome. -/
theorem apply_touches {mf : Manifest} {keepExtra : Bool} (hreal : st.Real m.fs) :
    After (apply X st st.root mf keepExtra m)
      (fun _ m' => st.Touched (Touches st mf.files m.fs) m.fs m'.fs)
      (fun _ m' => st.Touched (Touches st mf.files m.fs) m.fs m'.fs) := by
  have hroot : m.fs.get st.root = some .dir :=
    Fs.dir_of_prefix hreal.dir (List.prefix_append _ _)
  have hnames : ∀ n ∈ tmpDir st, ValidName n := Purge.record_names hreal (by decide)
  have htmp : ∀ q, st.fabricDir <+: q → q ≠ st.fabricDir → q <+: tmpDir st →
      Touches st mf.files m.fs q := by
    intro q hdir hne hq
    right
    left
    rcases List.prefix_concat_iff.mp hq with heq | hin
    · exact heq ▸ List.prefix_refl _
    · exact absurd (hin.eq_of_length (le_antisymm hin.length_le hdir.length_le)) hne
  unfold apply
  apply After.bind (P := fun _ m₁ => m₁ = m)
  · exact after_look (fun _ _ => rfl) fun _ _ => Store.Touched.refl hreal
  intro _ m₁ hm₁
  subst hm₁
  have hmake := createDirAll_after (w := m₁.toWorld) hnames
    fun pre hpre => hreal.noLink (List.prefix_append _ _) hpre
  have htouch : After (createDirAll (tmpDir st) m₁.toWorld) _ _ :=
    Store.Touched.of_createDirAll (S := Touches st mf.files m₁.fs) hreal
      (List.prefix_append _ _) hnames htmp
  apply After.bind (P := fun _ m₂ => st.Touched (Touches st mf.files m₁.fs) m₁.fs m₂.fs ∧
    Ready st (tmpDir st) m₂.fs)
  · apply after_io
    cases hmk : createDirAll (tmpDir st) m₁.toWorld with
    | error e w =>
        rw [hmk] at htouch
        exact htouch
    | ok u w =>
        rw [hmk] at hmake htouch
        refine ⟨htouch, hmake.1.adds.dir hroot, w.fs, ?_, Fs.Grows.refl _⟩
        have hself : w.fs.resolve false (tmpDir st) = .ok (tmpDir st) :=
          Fs.resolve_of_get hmake.2 (by simp)
        exact Fs.resolve_snoc_dot (fun _ _ h => h) hmake.2 hself
  intro _ m₂ h₂
  apply After.bind (P := fun _ m₃ => st.Touched (Touches st mf.files m₁.fs) m₁.fs m₃.fs ∧
    Ready st (tmpDir st) m₃.fs)
  · unfold writePass
    refine After.collect (I := fun s : Machine =>
      st.Touched (Touches st mf.files m₁.fs) m₁.fs s.fs ∧
      Ready st (tmpDir st) s.fs) h₂ ?_
    intro fe hfe s hs
    exact writeEntry_touches hfe hs.1 hs.2
  intro restored m₃ h₃
  apply (tidy_after h₃.2.root).mono
  · intro _ m₄ h₄
    have hframe : ∀ q, st.fabricDir <+: q → m₄.fs.get q = m₃.fs.get q := fun q hq =>
      h₄.events.get_eq fun e he => cleanEvent_outside he hq
    refine ⟨⟨?_, ?_⟩, ?_⟩
    · rw [hframe _ (List.prefix_refl _)]
      exact h₃.1.real.dir
    · intro q t hq ht
      exact h₃.1.real.links q t hq (hframe q hq ▸ ht)
    · intro q hq
      have hin : st.fabricDir <+: q := not_not.mp fun hout => hq (Or.inl hout)
      exact (hframe q hin).trans (h₃.1.frame q hq)
  · intro _ _ h
    exact h.elim

/-- A gated revert touches what the revert touches. -/
theorem checkThenApply_touches {mf : Manifest} {keepExtra force : Bool} (hreal : st.Real m.fs) :
    After (checkThenApply X st st.root mf keepExtra force m)
      (fun _ m' => st.Touched (Touches st mf.files m.fs) m.fs m'.fs)
      (fun _ m' => st.Touched (Touches st mf.files m.fs) m.fs m'.fs) := by
  unfold checkThenApply
  apply After.bind (P := fun _ m₁ => m₁ = m)
  · exact after_look (fun _ _ => rfl) fun _ _ => Store.Touched.refl hreal
  intro report m₁ hm₁
  subst hm₁
  by_cases hgate : (dirty report && !force) = true
  · rw [if_pos hgate]
    exact Store.Touched.refl hreal
  · rw [if_neg hgate]
    apply After.bind (apply_touches hreal)
    intro _ _ h
    exact h

end Revert

end Respawn
