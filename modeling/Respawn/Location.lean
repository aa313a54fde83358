import Respawn.Anchors
import Respawn.Readback

/-!
# Where an anchor is written

`create` refuses to write an anchor into the fabric.  It judges the path by its
text: `..` takes the component before it away, and only then is the deepest
ancestor that exists looked up.  The write goes through the path as it was
given, where `..` is the directory above the one reached so far, and a path
that is not absolute starts in the current directory.

* `createDirAllRev_place` — for a path without `..` both lead to one place.
* `written_outside_iff` — what was written lies outside the fabric for such a
  path, and otherwise when the path leads outside.
-/

namespace FileTree

open ByteStr StateLogic

/-! ## Where a path to a directory leads -/

namespace Fs

variable {fs : Fs}

/-- One step of a walk that ends in `.` is a step that follows a last link. -/
theorem stepInto_of_dot {c q : Path} {r : List Name}
    {chase chase' : Path → Bytes → List Name → Except Errno Path}
    (hchase : ∀ c t r, chase c t (r ++ [dot]) = .ok q → chase' c t r = .ok q)
    (h : stepInto fs false chase c (r ++ [dot]) = .ok q) : stepInto fs true chase' c r = .ok q := by
  induction r generalizing c with
  | nil => simpa [stepInto] using h
  | cons s r ih =>
      have hne : r ++ [dot] ≠ [] := by simp
      rw [List.cons_append] at h
      unfold stepInto at h ⊢
      by_cases hs : s = dot
      · rw [if_pos hs] at h ⊢
        exact ih h
      · rw [if_neg hs] at h ⊢
        by_cases hdd : s = dotdot
        · rw [if_pos hdd] at h ⊢
          exact ih h
        · rw [if_neg hdd] at h ⊢
          cases hx : fs.get (c ++ [s]) with
          | none => simp [hx] at h
          | some x =>
              simp only [hx] at h ⊢
              cases x with
              | dir => exact ih h
              | file d => simp at h
              | symlink t =>
                  simp only at h ⊢
                  rw [if_neg (fun hboth => hne hboth.1)] at h
                  rw [if_neg (by simp)]
                  exact hchase _ _ _ h

/-- The same through the links that the walk chases. -/
theorem chaseLink_of_dot {k : Nat} {c q : Path} {t : Bytes} {r : List Name}
    (h : chaseLink fs false k c t (r ++ [dot]) = .ok q) : chaseLink fs true k c t r = .ok q := by
  induction k generalizing c t r with
  | zero => cases h
  | succ k ih =>
      unfold chaseLink at h ⊢
      rw [← List.append_assoc] at h
      exact stepInto_of_dot (fun _ _ _ h => ih h) h

/-- A path that leads to a directory leads there when it does not ask for one. -/
theorem resolve_of_dot {p q : Path} (h : fs.resolve false (p ++ [dot]) = .ok q) :
    fs.resolve true p = .ok q :=
  stepInto_of_dot (fun _ _ _ h => chaseLink_of_dot h) h

/-- A directory resolves to its place. -/
theorem isDir_resolve {p : Path} (h : fs.isDir p = true) :
    ∃ q, fs.resolve true p = .ok q ∧ fs.get q = some .dir := by
  unfold isDir metadata at h
  cases hres : fs.resolve true p with
  | error e => simp [hres] at h
  | ok q =>
      rw [hres] at h
      cases hx : fs.get q with
      | none => simp [hx] at h
      | some x =>
          cases x with
          | dir => exact ⟨q, rfl, hx⟩
          | file d => simp [hx] at h
          | symlink t => simp [hx] at h

/-- A directory keeps its place in a tree of the same shape. -/
theorem SameShape.dir {fs' : Fs} (h : SameShape fs fs') {q : Path} (hq : fs.get q = some .dir) :
    fs'.get q = some .dir := by
  rcases h q with heq | ⟨hold, -⟩
  · exact heq.trans hq
  · rcases hold with hnone | ⟨d, hd⟩
    · rw [hnone] at hq
      cases hq
    · rw [hd] at hq
      cases hq

end Fs

/-! ## Where a file is put -/

/-- The place where a file lands that is put at `path` after the directories
above it were made. -/
def landing (path : Path) (w : World) : Option Path :=
  match createDirAll path.dropLast w with
  | .ok _ w' => (w'.fs.resolve false path).toOption
  | .error _ _ => none

/-- The place to which an event moves a file. -/
def Event.target : Event → Option Path
  | .rename _ q => some q
  | _ => none

end FileTree

namespace Respawn

open ByteStr FileTree StateLogic

/-- **Where a file that is replaced lands**, whatever the path is made of. -/
theorem Store.replaceFile_lands {tag : Bytes} {path : Path} {data : Bytes} {m m' : Machine}
    {u : Unit} (htag : ∀ k, ValidName (tmpName m.pid k tag))
    (h : Store.replaceFile tag path data m = .ok u m') :
    ∃ w q, createDirAll path.dropLast m.toWorld = .ok () w ∧ w.fs.resolve false path = .ok q ∧
      w.fs.Filed m'.fs q data ∧ (m.since m').findSome? Event.target = some q := by
  unfold Store.replaceFile at h
  obtain ⟨_, m₁, hmake, h⟩ := bind_eq_ok.mp h
  obtain ⟨w, hmade, rfl⟩ := io_eq_ok.mp hmake
  obtain ⟨hsome, c, hc⟩ := createDirAll_made.ok hmade
  obtain ⟨tmp, m₂, htmp, h⟩ := bind_eq_ok.mp h
  cases htmp
  obtain ⟨f, m₃, hopen, h⟩ := bind_eq_ok.mp h
  obtain ⟨w₃, hcreate, rfl⟩ := io_eq_ok.mp hopen
  obtain ⟨hres, hopened⟩ := opened_of_createNew (m := { m with toWorld := w }) hcreate
  have hf := Except.ok.inj (hres.symm.trans (Fs.resolve_in (htag _) hc))
  subst hf
  obtain ⟨_, _, hw₃⟩ := createNew_ok hcreate
  obtain ⟨_, m₄, hput, h⟩ := bind_eq_ok.mp h
  cases hput
  obtain ⟨w₅, hrename, rfl⟩ := io_eq_ok.mp h
  obtain ⟨p', q', x, hp', hq', -, hnodir, rfl⟩ := rename_ok hrename
  have hstart : Appended (c ++ [tmpName m.pid m.tmpCounter tag]) [] [] { m with toWorld := w₃ }
      { m with toWorld := w₃ } := by
    obtain ⟨d, hd, hempty⟩ := hopened.file
    exact ⟨⟨d, hd, hempty⟩, fun _ _ => rfl, Machine.Ran.refl _⟩
  have hfull := hopened.append (hstart.write data)
  have hshape := hfull.shape
  have htmp := Except.ok.inj
    (hp'.symm.trans (Fs.resolve_shape hshape (Fs.resolve_in (htag _) hc)))
  subst htmp
  have hplace := Fs.resolve_shape hshape.symm hq'
  obtain ⟨hfile, hframe⟩ := hfull.rename (Fs.room_of_resolve hq' hnodir)
  refine ⟨w, q', hmade, hplace, ⟨fun hthere => hnodir (hfull.grows.dirs _ hthere), hfile, hframe⟩,
    ?_⟩
  -- making the directories moved nothing
  obtain ⟨_, evs, htrace, _, hevs⟩ := hsome.events
  have hnone : evs.findSome? Event.target = none := by
    rw [List.findSome?_eq_none_iff]
    intro e he
    obtain ⟨r, rfl⟩ := hevs e he
    rfl
  unfold Machine.since
  subst hw₃
  simp only [World.perform_trace, htrace, List.append_assoc, List.drop_left,
    List.findSome?_append, hnone]
  rfl

namespace Anchor

/-! ## Where directories are made and where they are looked for -/

/-- A path has a canonical form when it leads to something. -/
theorem canonicalize_eq_ok {fs : Fs} {p q : Path} :
    canonicalize fs p = .ok q ↔ fs.resolve true p = .ok q ∧ fs.get q ≠ none := by
  unfold canonicalize
  cases hres : fs.resolve true p with
  | error e => simp
  | ok r =>
      simp only [Except.ok.injEq]
      by_cases hr : fs.get r = none
      · simp only [hr, Option.isSome_none, Bool.false_eq_true, if_false]
        constructor
        · intro h
          cases h
        · rintro ⟨rfl, hne⟩
          exact absurd hr hne
      · have hsome : (fs.get r).isSome = true := Option.isSome_iff_ne_none.mpr hr
        simp only [hsome, if_true, Except.ok.injEq]
        constructor
        · rintro rfl
          exact ⟨rfl, hr⟩
        · intro h
          exact h.1

/-- When a path has a canonical form. -/
theorem isOk_canonicalize {fs : Fs} {p : Path} :
    (canonicalize fs p).isOk = true ↔ ∃ q, canonicalize fs p = .ok q := by
  cases canonicalize fs p with
  | ok q => exact ⟨fun _ => ⟨q, rfl⟩, fun _ => rfl⟩
  | error e => exact ⟨fun h => (nomatch h), fun h => (nomatch h.choose_spec)⟩

/-- A path to a directory is its own ancestor. -/
theorem deepest_of_ok {fs : Fs} {up tail : Path} (h : (canonicalize fs up.reverse).isOk = true) :
    deepest fs up tail = (up.reverse, tail) := by
  cases up with
  | nil => rfl
  | cons n up => exact if_pos h

/-- What was peeled off already stands behind what is peeled off now. -/
theorem deepest_tail {fs : Fs} {up tail : Path} :
    deepest fs up tail = ((deepest fs up []).1, (deepest fs up []).2 ++ tail) := by
  induction up generalizing tail with
  | nil => rfl
  | cons n up ih =>
      unfold deepest
      by_cases h : (canonicalize fs (n :: up).reverse).isOk = true
      · rw [if_pos h, if_pos h]
        rfl
      · rw [if_neg h, if_neg h, ih, @ih [n]]
        simp

/-- A directory that was made is found under its path. -/
theorem mkdir_leads {p r : Path} {w : World} (hr : w.fs.resolve false p = .ok r)
    (hnone : w.fs.get r = none) :
    (w.perform (.mkdir r)).fs.resolve false (p ++ [dot]) = .ok r := by
  have hroom := Fs.room_of_reached (Fs.resolve_reached hr) hnone
  have hget : ∀ q, (w.fs.exec (.mkdir r)).get q = _ := Fs.get_put hroom .dir
  apply Fs.resolve_snoc_dot _ ((hget r).trans (if_pos rfl)) hr
  intro q x hx
  rw [hget]
  by_cases hq : q = r
  · rw [hq, hnone] at hx
    cases hx
  · rw [if_neg hq]
    exact hx

/-- An attempt that succeeds made the directory, or found one. -/
theorem mkdirOrFound_cases {p : Path} {w w' : World} {u : Unit} (h : mkdirOrFound p w = .ok u w') :
    (∃ r, w.fs.resolve false p = .ok r ∧ w.fs.get r = none ∧ w' = w.perform (.mkdir r)) ∨
      (w' = w ∧ ∃ q, w.fs.resolve true p = .ok q ∧ w.fs.get q = some .dir) := by
  unfold mkdirOrFound at h
  cases hmk : mkdir p w with
  | ok v w₁ =>
      simp only [hmk] at h
      cases h
      exact Or.inl (mkdir_ok hmk)
  | error err w₁ =>
      have hw := mkdir_error hmk
      subst hw
      simp only [hmk] at h
      by_cases hdir : w₁.fs.isDir p = true
      · rw [if_pos hdir] at h
        cases h
        exact Or.inr ⟨rfl, Fs.isDir_resolve hdir⟩
      · rw [if_neg hdir] at h
        cases h

/-- It had a place to make it. -/
theorem mkdirOrFound_entry {p : Path} {w w' : World} {u : Unit}
    (h : mkdirOrFound p w = .ok u w') : ∃ e, w.fs.resolve false p = .ok e := by
  rcases mkdirOrFound_cases h with ⟨r, hr, -⟩ | ⟨-, q, hq, -⟩
  · exact ⟨r, hr⟩
  · exact Fs.resolve_entry hq

/-- Where the path leads, there the directory is then. -/
theorem mkdirOrFound_leads {p q : Path} {w w' : World} {u : Unit}
    (hq : w.fs.resolve true p = .ok q) (h : mkdirOrFound p w = .ok u w') :
    w'.fs.resolve false (p ++ [dot]) = .ok q := by
  rcases mkdirOrFound_cases h with ⟨r, hr, hnone, rfl⟩ | ⟨rfl, q', hq', hdir⟩
  · have hfollow := Fs.resolve_follow (fun t ht => by rw [hnone] at ht; cases ht) hr
    obtain rfl := Except.ok.inj (hq.symm.trans hfollow)
    exact mkdir_leads hr hnone
  · obtain rfl := Except.ok.inj (hq.symm.trans hq')
    exact Fs.resolve_snoc_dot (fun _ _ hx => hx) hdir hq

/-- A directory is made at the first attempt, or after those above it. -/
theorem createDirAllRev_cases {up : Path} {n : Name} {w w' : World} {u : Unit}
    (h : createDirAllRev (n :: up) w = .ok u w') :
    mkdirOrFound (n :: up).reverse w = .ok u w' ∨
      ∃ w₁, mkdir (n :: up).reverse w = .error .notFound w ∧ createDirAllRev up w = .ok () w₁ ∧
        mkdirOrFound (n :: up).reverse w₁ = .ok u w' := by
  unfold createDirAllRev at h
  cases hmk : mkdir (n :: up).reverse w with
  | ok v w₁ =>
      rw [hmk] at h
      exact Or.inl h
  | error err w₁ =>
      have hw := mkdir_error hmk
      subst hw
      rw [hmk] at h
      cases err with
      | notFound =>
          obtain ⟨_, w₂, hup, hagain⟩ := bind_eq_ok.mp h
          exact Or.inr ⟨w₂, rfl, hup, hagain⟩
      | _ => exact Or.inl h

/-! ## Trees with the same directories and links -/

/-- Where the directory above is missing there is no place to make one. -/
theorem unresolved_of_notFound {p e : Path} {w : World} (h : mkdir p w = .error .notFound w) :
    w.fs.resolve false p ≠ .ok e := by
  intro he
  unfold mkdir at h
  rw [he] at h
  simp only at h
  split at h <;> cases h

/-- Making a directory keeps two trees of the same shape so. -/
theorem mkdirOrFound_shape {p : Path} {w w' v v' : World} {a b : Unit}
    (hshape : Fs.SameShape w.fs v.fs) (hw : mkdirOrFound p w = .ok a w')
    (hv : mkdirOrFound p v = .ok b v') : Fs.SameShape w'.fs v'.fs := by
  -- what is made in one tree is not found in the other
  have hmixed : ∀ {w v : World} {r q : Path}, Fs.SameShape w.fs v.fs →
      w.fs.resolve false p = .ok r → w.fs.get r = none → v.fs.resolve true p = .ok q →
      v.fs.get q ≠ some .dir := by
    intro w v r q hshape hr hnone hq hdir
    have hfollow := Fs.resolve_follow (fun t ht => by rw [hnone] at ht; cases ht) hr
    obtain rfl := Except.ok.inj (hq.symm.trans (Fs.resolve_shape hshape hfollow))
    rw [hshape.symm.dir hdir] at hnone
    cases hnone
  rcases mkdirOrFound_cases hw with ⟨r, hr, hnone, rfl⟩ | ⟨rfl, q, hq, hdir⟩
  · rcases mkdirOrFound_cases hv with ⟨r', hr', hnone', rfl⟩ | ⟨rfl, q, hq, hdir⟩
    · obtain rfl := Except.ok.inj (hr'.symm.trans (Fs.resolve_shape hshape hr))
      have hroom := Fs.room_of_reached (Fs.resolve_reached hr) hnone
      have hroom' := Fs.room_of_reached (Fs.resolve_reached hr') hnone'
      have hget : ∀ q, (w.fs.exec (.mkdir r')).get q = _ := Fs.get_put hroom .dir
      have hget' : ∀ q, (v.fs.exec (.mkdir r')).get q = _ := Fs.get_put hroom' .dir
      intro q
      show (v.fs.exec (.mkdir r')).get q = (w.fs.exec (.mkdir r')).get q ∨
        Fs.Flat ((w.fs.exec (.mkdir r')).get q) ∧ Fs.Flat ((v.fs.exec (.mkdir r')).get q)
      rw [hget, hget']
      by_cases hq : q = r'
      · rw [if_pos hq, if_pos hq]
        exact Or.inl rfl
      · rw [if_neg hq, if_neg hq]
        exact hshape q
    · exact absurd hdir (hmixed hshape hr hnone hq)
  · rcases mkdirOrFound_cases hv with ⟨r', hr', hnone', rfl⟩ | ⟨rfl, -⟩
    · exact absurd hdir (hmixed hshape.symm hr' hnone' hq)
    · exact hshape

/-- Directories that can be made in both trees leave them alike. -/
theorem createDirAllRev_shape {up : Path} {w w' v v' : World} {a b : Unit}
    (hshape : Fs.SameShape w.fs v.fs) (hw : createDirAllRev up w = .ok a w')
    (hv : createDirAllRev up v = .ok b v') : Fs.SameShape w'.fs v'.fs := by
  induction up generalizing w w' v v' with
  | nil =>
      cases hw
      cases hv
      exact hshape
  | cons n up ih =>
      rcases createDirAllRev_cases hw with hfirst | ⟨w₁, hmiss, hup, hagain⟩
      · rcases createDirAllRev_cases hv with hfirst' | ⟨v₁, hmiss', -, -⟩
        · exact mkdirOrFound_shape hshape hfirst hfirst'
        · obtain ⟨e, he⟩ := mkdirOrFound_entry hfirst
          exact absurd (Fs.resolve_shape hshape he) (unresolved_of_notFound hmiss')
      · rcases createDirAllRev_cases hv with hfirst' | ⟨v₁, -, hup', hagain'⟩
        · obtain ⟨e, he⟩ := mkdirOrFound_entry hfirst'
          exact absurd (Fs.resolve_shape hshape.symm he) (unresolved_of_notFound hmiss)
        · exact mkdirOrFound_shape (ih hshape hup hup') hagain hagain'

/-- **Files are not in the way of where a path leads**: in two trees with the
same directories and links a file lands in one place, if it lands in both. -/
theorem landing_shape {p q q' : Path} {w v : World} (hshape : Fs.SameShape w.fs v.fs)
    (hw : landing p w = some q) (hv : landing p v = some q') : q' = q := by
  unfold landing at hw hv
  cases hmade : createDirAll p.dropLast w with
  | error e w' =>
      rw [hmade] at hw
      cases hw
  | ok u w' =>
      cases hmade' : createDirAll p.dropLast v with
      | error e v' =>
          rw [hmade'] at hv
          cases hv
      | ok u' v' =>
          rw [hmade] at hw
          rw [hmade'] at hv
          have hq := Fs.resolve_shape (createDirAllRev_shape hshape hmade hmade')
            (eq_ok_of_toOption hw)
          exact Except.ok.inj ((eq_ok_of_toOption hv).symm.trans hq)

/-- After a first attempt that missed the directory above, no link stands in
the place of the directory. -/
theorem notLink_of_made {up : Path} {n : Name} {w w₂ : World} {c : Path} {u : Unit}
    (hnames : ∀ a ∈ n :: up, ValidName a)
    (hfirst : mkdir (n :: up).reverse w = .error .notFound w)
    (hup : createDirAllRev up w = .ok u w₂)
    (hplace : w₂.fs.resolve false (up.reverse ++ [dot]) = .ok c) (t : Bytes) :
    w₂.fs.get (c ++ [n]) ≠ some (.symlink t) := by
  intro ht
  have hn : ValidName n := hnames n List.mem_cons_self
  obtain ⟨c', hsettled⟩ :=
    (createDirAllRev_settled fun a ha => hnames a (List.mem_cons_of_mem _ ha)).ok hup
  obtain rfl := Except.ok.inj (hplace.symm.trans hsettled.leads)
  rcases hsettled.fresh with hnone | rfl
  · have hold := hsettled.made.newDirs.link ht
    rw [w.fs.get_append_eq_none (by rw [hnone]; simp) (by simp)] at hold
    cases hold
  · have hentry := Fs.resolve_in hn hplace
    unfold mkdir at hfirst
    rw [List.reverse_cons, hentry] at hfirst
    simp only at hfirst
    split at hfirst <;> cases hfirst

/-- **The check sees what will be made.**  Directories that can be made along a
path of proper names are made where the deepest ancestor that exists leads,
followed by the rest of the path; files may have come or gone since that
ancestor was looked for. -/
theorem createDirAllRev_place {fs : Fs} {up : Path} {w w' : World} {u : Unit}
    (hnames : ∀ n ∈ up, ValidName n) (hshape : Fs.SameShape fs w.fs)
    (h : createDirAllRev up w = .ok u w') :
    ∃ base, canonicalize fs (deepest fs up []).1 = .ok base ∧
      w'.fs.resolve false (up.reverse ++ [dot]) = .ok (base ++ (deepest fs up []).2) := by
  induction up generalizing w w' with
  | nil => exact ⟨[], canonicalize_eq_ok.mpr ⟨rfl, by simp [fs.get_root]⟩, rfl⟩
  | cons n up ih =>
      have hn : ValidName n := hnames n List.mem_cons_self
      have hlast : (n :: up).reverse = up.reverse ++ [n] := List.reverse_cons
      by_cases hcan : (canonicalize fs (n :: up).reverse).isOk = true
      · -- the path is there: nothing is made, unless a file of that name is gone
        obtain ⟨b, hb⟩ := isOk_canonicalize.mp hcan
        have hres := Fs.resolve_shape hshape (canonicalize_eq_ok.mp hb).1
        rw [deepest_of_ok hcan]
        refine ⟨b, hb, ?_⟩
        rw [List.append_nil]
        rcases createDirAllRev_cases h with hfirst | ⟨w₁, hmiss, -, -⟩
        · exact mkdirOrFound_leads hres hfirst
        · obtain ⟨e, hentry⟩ := Fs.resolve_entry hres
          exact absurd hentry (unresolved_of_notFound hmiss)
      · have hdeep : deepest fs (n :: up) [] = deepest fs up [n] := if_neg hcan
        rw [hdeep, deepest_tail]
        rcases createDirAllRev_cases h with hfirst | ⟨w₂, hmiss, hup, hagain⟩
        · rcases mkdirOrFound_cases hfirst with ⟨r, hr, hnone, -⟩ | ⟨-, q, hq, hqdir⟩
          · -- the directory above is there
            have hfollow := Fs.resolve_follow (fun t ht => by rw [hnone] at ht; cases ht) hr
            have hleads := mkdirOrFound_leads hfollow hfirst
            rw [hlast] at hr
            obtain ⟨c, hc, rfl⟩ := Fs.of_resolve_in hn hr
            have habove : canonicalize fs up.reverse = .ok c := by
              apply canonicalize_eq_ok.mpr
              refine ⟨Fs.resolve_shape hshape.symm (Fs.resolve_of_dot hc), ?_⟩
              rw [hshape.symm.dir (Fs.resolve_dot hc)]
              simp
            rw [deepest_of_ok (isOk_canonicalize.mpr ⟨c, habove⟩)]
            exact ⟨c, habove, hleads⟩
          · -- a path that is not there is not found to be a directory
            exfalso
            apply hcan
            apply isOk_canonicalize.mpr
            refine ⟨q, canonicalize_eq_ok.mpr ⟨Fs.resolve_shape hshape.symm hq, ?_⟩⟩
            rw [hshape.symm.dir hqdir]
            simp
        · obtain ⟨base, hbase, hplace⟩ :=
            ih (fun a ha => hnames a (List.mem_cons_of_mem _ ha)) hshape hup
          refine ⟨base, hbase, ?_⟩
          have hentry := Fs.resolve_in hn hplace
          rw [← hlast] at hentry
          have hfollow := Fs.resolve_follow (notLink_of_made hnames hmiss hup hplace) hentry
          rw [← List.append_assoc]
          exact mkdirOrFound_leads hfollow hagain

/-! ## Paths as they are given -/

/-- A path from the root or from the current directory, without the components
that say `.`. -/
structure OutPath where
  absolute : Bool
  comps : Path
  deriving DecidableEq

namespace OutPath

/-- The path from the root that the system looks up. -/
def full (cwd : Path) (p : OutPath) : Path := if p.absolute then p.comps else cwd ++ p.comps

/-- `Path::canonicalize`; an empty path leads nowhere. -/
def canonicalize (cwd : Path) (fs : Fs) (p : OutPath) : Except Errno Path :=
  if p.absolute = false ∧ p.comps = [] then .error .notFound
  else Anchor.canonicalize fs (p.full cwd)

/-- The deepest ancestor of a path that exists, and what lies below it; the
components are given deepest first. -/
def deepest (cwd : Path) (fs : Fs) (absolute : Bool) : Path → Path → Path × Path
  | [], tail => ([], tail)
  | n :: up, tail =>
      if (canonicalize cwd fs ⟨absolute, (n :: up).reverse⟩).isOk then ((n :: up).reverse, tail)
      else deepest cwd fs absolute up (n :: tail)

/-- The directory of `out`, as far as it exists by its physical path. -/
def resolvedParent (cwd : Path) (fs : Fs) (out : OutPath) : OutPath :=
  let parent : OutPath := ⟨out.absolute, normalize out.comps.dropLast⟩
  let (ancestor, tail) := deepest cwd fs parent.absolute parent.comps.reverse []
  match canonicalize cwd fs ⟨parent.absolute, ancestor⟩ with
  | .ok base => ⟨true, base ++ tail⟩
  | .error _ => parent

/-- Where the check takes the anchor to go. -/
def candidate (cwd : Path) (fs : Fs) (out : OutPath) : OutPath :=
  let parent := resolvedParent cwd fs out
  ⟨parent.absolute, normalize (parent.comps ++ (fileName out.comps).toList)⟩

end OutPath

/-- The fabric directory, by its physical path if it is there. -/
def fabricPlace (st : Store) (fs : Fs) : Path :=
  match canonicalize fs st.fabricDir with
  | .ok q => q
  | .error _ => st.fabricDir

/-- An anchor inside the fabric it anchors is refused; a path that is still not
absolute lies inside nothing. -/
def checkOutsideFrom (st : Store) (cwd : Path) (out : OutPath) (fs : Fs) : Except Error Unit :=
  let candidate := out.candidate cwd fs
  if candidate.absolute ∧ fabricPlace st fs <+: candidate.comps then
    .error (.corrupt
      (str "anchor must live outside .respawn/ — inside the fabric it proves nothing"))
  else .ok ()

variable (A : AnchorCrates) (st : Store)

/-- What `create` does before it writes: the check of the path, the key, and
the signature. -/
def signing (cwd : Path) (out : OutPath) : Sys (AnchorPayload × AnchorFile × Option Bytes) := do
  look (checkOutsideFrom st cwd out)
  let (raw, _, note) ← Keychain.get st
  let (auditLen, auditTip) ← look (Audit.tip A.toCrates st)
  let (payload, file) ← compose A st raw auditLen auditTip
  pure (payload, file, note)

/-- `create`, of a path as it is given to a process in the directory `cwd`. -/
def createFrom (cwd : Path) (out : OutPath) : Sys CreateOutcome := do
  let (payload, file, note) ← signing A st cwd out
  let bytes := A.anchorToJson file
  atomicWrite (out.full cwd) bytes
  atomicWrite (lastAnchorPath st) (hashHex (A.blake3 bytes))
  pure { auditLen := payload.auditLen, note := note }

variable {A st}

theorem canonicalize_absolute {cwd p : Path} {fs : Fs} :
    OutPath.canonicalize cwd fs ⟨true, p⟩ = canonicalize fs p := by
  simp [OutPath.canonicalize, OutPath.full]

/-- On an absolute path the walk up is the one that takes no current directory.
-/
theorem deepest_absolute {cwd up tail : Path} {fs : Fs} :
    OutPath.deepest cwd fs true up tail = deepest fs up tail := by
  induction up generalizing tail with
  | nil => rfl
  | cons n up ih =>
      unfold OutPath.deepest deepest
      rw [canonicalize_absolute, ih]

/-- On an absolute path the check is the one that takes no current directory. -/
theorem checkOutsideFrom_absolute {cwd p : Path} {fs : Fs} :
    checkOutsideFrom st cwd ⟨true, p⟩ fs = checkOutside st p fs := by
  have hparent : ∀ q, OutPath.resolvedParent cwd fs ⟨true, q⟩ = ⟨true, resolvedParent fs q⟩ := by
    intro q
    unfold OutPath.resolvedParent resolvedParent
    simp only [deepest_absolute, canonicalize_absolute]
    cases canonicalize fs (deepest fs (normalize q.dropLast).reverse []).1 <;> rfl
  unfold checkOutsideFrom checkOutside OutPath.candidate fabricPlace
  simp only [hparent]
  exact if_congr (and_iff_right trivial) rfl rfl

/-- From the root it is `create`, wherever the process runs. -/
theorem createFrom_absolute (cwd p : Path) :
    createFrom A st cwd ⟨true, p⟩ = create A st p := by
  have hcheck : checkOutsideFrom st cwd ⟨true, p⟩ = checkOutside st p := by
    funext fs
    exact checkOutsideFrom_absolute
  unfold createFrom create signing opening
  rw [hcheck]
  simp only [bind_assoc, pure_bind]
  rfl

/-! ## Signing leaves the directories alone -/

/-- The fabric directory is there, and its key and its identity are no links. -/
structure Owned (st : Store) (fs : Fs) (F : Path) : Prop where
  leads : fs.resolve true st.fabricDir = .ok F
  dir : fs.get F = some .dir
  plain : ∀ n ∈ [str "anchor.secret", str "fabric_id"], ∀ t, fs.get (F ++ [n]) ≠ some (.symlink t)

/-- A tree of the same shape owns the fabric at the same place. -/
theorem Owned.shape {fs fs' : Fs} {F : Path} (h : Owned st fs F) (hshape : Fs.SameShape fs fs') :
    Owned st fs' F := by
  refine ⟨Fs.resolve_shape hshape h.leads, hshape.dir h.dir, ?_⟩
  intro n hn t ht
  rcases hshape (F ++ [n]) with heq | ⟨_, hflat⟩
  · exact h.plain n hn t (heq.symm.trans ht)
  · rcases hflat with hnone | ⟨d, hd⟩
    · rw [hnone] at ht
      cases ht
    · rw [hd] at ht
      cases ht

/-- Only the identity and the key file in the directory `F` were touched, as
files. -/
structure KeyTouched (F : Path) (fs fs' : Fs) : Prop where
  shape : Fs.SameShape fs fs'
  frame : ∀ q, q ≠ F ++ [str "fabric_id"] → q ≠ F ++ [str "anchor.secret"] → fs'.get q = fs.get q

theorem KeyTouched.refl (F : Path) (fs : Fs) : KeyTouched F fs fs :=
  ⟨fun _ => Or.inl rfl, fun _ _ _ => rfl⟩

theorem KeyTouched.trans {F : Path} {fs₁ fs₂ fs₃ : Fs} (h₁ : KeyTouched F fs₁ fs₂)
    (h₂ : KeyTouched F fs₂ fs₃) : KeyTouched F fs₁ fs₃ :=
  ⟨h₁.shape.trans h₂.shape, fun q hid hkey => (h₂.frame q hid hkey).trans (h₁.frame q hid hkey)⟩

/-- What is in the fabric directory is found there. -/
theorem Owned.entry {fs : Fs} {F : Path} {n : Name} (h : Owned st fs F) (hn : ValidName n) :
    fs.resolve false (st.fabricDir ++ [n]) = .ok (F ++ [n]) :=
  Fs.resolve_in hn (Fs.resolve_snoc_dot (fun _ _ hx => hx) h.dir h.leads)

/-- A directory that a path leads to is left alone. -/
theorem createDirAll_found {p q : Path} {w : World} (hres : w.fs.resolve true p = .ok q)
    (hdir : w.fs.get q = some .dir) : createDirAll p w = .ok () w := by
  unfold createDirAll
  cases hp : p.reverse with
  | nil => rfl
  | cons n up =>
      have hback : (n :: up).reverse = p := by rw [← hp, List.reverse_reverse]
      obtain ⟨e, hentry⟩ := Fs.resolve_entry hres
      have hthere : (w.fs.get e).isSome = true := by
        cases hget : w.fs.get e with
        | some x => rfl
        | none =>
            have hfollow := Fs.resolve_follow (fun t ht => by rw [hget] at ht; cases ht) hentry
            obtain rfl := Except.ok.inj (hres.symm.trans hfollow)
            rw [hdir] at hget
            cases hget
      have hmk : mkdir p w = .error .alreadyExists w := by simp [mkdir, hentry, hthere]
      have hisdir : w.fs.isDir p = true := by simp [Fs.isDir, Fs.metadata, hres, hdir]
      unfold createDirAllRev
      rw [hback]
      simp [hmk, mkdirOrFound, hisdir]

/-- The identity is read or minted; then a file takes the place of none. -/
theorem fabricId_keys {F : Path} {m m' : Machine} {id : Bytes} (hown : Owned st m.fs F)
    (h : fabricId st m = .ok id m') : KeyTouched F m.fs m'.fs := by
  unfold fabricId at h
  rw [bind_apply, look_get] at h
  simp only at h
  cases hread : m.fs.readToString (fabricIdPath st) with
  | ok s =>
      rw [hread] at h
      cases h
      exact KeyTouched.refl _ _
  | error e =>
      rw [hread] at h
      simp only at h
      split at h
      · obtain ⟨id', m₁, hrandom, h⟩ := bind_eq_ok.mp h
        obtain ⟨_, m₂, hwrite, h⟩ := bind_eq_ok.mp h
        cases h
        have hfs : m₁.fs = m.fs := by
          unfold randomHex32 at hrandom
          split at hrandom
          · cases hrandom
          · cases hrandom
            rfl
        have hown₁ : Owned st m₁.fs F := hfs ▸ hown
        obtain ⟨w, q, hmade, hplace, hfiled, _⟩ := Store.replaceFile_lands
          (fun k => validName_tmpName (by decide) (by decide)) hwrite
        have hdrop : (fabricIdPath st).dropLast = st.fabricDir := List.dropLast_concat
        rw [hdrop, createDirAll_found hown₁.leads hown₁.dir] at hmade
        cases hmade
        obtain rfl := Except.ok.inj
          (hplace.symm.trans (hown₁.entry (n := str "fabric_id") (by decide)))
        rw [← hfs]
        exact ⟨hfiled.shape (hown₁.plain _ (by simp)), fun q hid _ => hfiled.2.2 q hid⟩
      · cases h

/-- Removing the key file takes a file away, if anything. -/
theorem removeSecret_keys {F : Path} {m m' : Machine} {u : Unit} (hown : Owned st m.fs F)
    (h : ignore (removeFile (Keychain.secretPath st)) m = .ok u m') :
    KeyTouched F m.fs m'.fs := by
  cases h
  show KeyTouched F m.fs (finalState (removeFile (Keychain.secretPath st) m.toWorld)).fs
  cases hrun : removeFile (Keychain.secretPath st) m.toWorld with
  | error e w =>
      rw [removeFile_error hrun]
      exact KeyTouched.refl _ _
  | ok v w =>
      obtain ⟨r, x, hr, hleaf, rfl⟩ := removeFile_ok hrun
      obtain rfl := Except.ok.inj
        (hr.symm.trans (hown.entry (n := str "anchor.secret") (by decide)))
      have hget := Fs.get_exec_unlink hleaf
      obtain ⟨hx, hdir⟩ := m.fs.leaf_eq_some.mp hleaf
      refine ⟨?_, fun q _ hkey => (hget q).trans (if_neg hkey)⟩
      intro q
      by_cases hq : q = F ++ [str "anchor.secret"]
      · right
        subst hq
        refine ⟨?_, Or.inl ((hget _).trans (if_pos rfl))⟩
        cases x with
        | file d => exact Or.inr ⟨d, hx⟩
        | dir => exact absurd rfl hdir
        | symlink t => exact absurd hx (hown.plain _ (by simp) t)
      · exact Or.inl ((hget q).trans (if_neg hq))

/-- Migrating a key touches the key files only. -/
theorem migrate_keys {F : Path} {id : Bytes} {raw : Keychain.Secret} {m m' : Machine}
    {r : Keychain.Secret × Keychain.Placement × Option Bytes} (hown : Owned st m.fs F)
    (h : Keychain.migrate st id raw m = .ok r m') : KeyTouched F m.fs m'.fs := by
  unfold Keychain.migrate at h
  obtain ⟨stored, m₁, hset, h⟩ := bind_eq_ok.mp h
  have hfs : m₁.fs = m.fs := by
    unfold Keychain.itemSet at hset
    split at hset <;> cases hset <;> rfl
  rw [← hfs]
  cases stored with
  | error e =>
      cases h
      exact KeyTouched.refl _ _
  | ok u =>
      obtain ⟨_, m₂, hremove, h⟩ := bind_eq_ok.mp h
      cases h
      exact removeSecret_keys (hfs ▸ hown) hremove

/-- Falling back on the key file touches the key files only. -/
theorem fallBack_keys {F : Path} {id : Bytes} {kcErr : Option Bytes} {m m' : Machine}
    {r : Keychain.Secret × Keychain.Placement × Option Bytes} (hown : Owned st m.fs F)
    (h : Keychain.fallBack st id kcErr m = .ok r m') : KeyTouched F m.fs m'.fs := by
  unfold Keychain.fallBack at h
  obtain ⟨found, m₁, hlook, h⟩ := bind_eq_ok.mp h
  obtain ⟨_, rfl⟩ := look_eq_ok.mp hlook
  cases found with
  | some raw => exact migrate_keys hown h
  | none => cases kcErr <;> cases h

/-- Looking up the key makes no directory and no link, and removes none. -/
theorem get_keys {F : Path} {m m' : Machine}
    {r : Keychain.Secret × Keychain.Placement × Option Bytes} (hown : Owned st m.fs F)
    (h : Keychain.get st m = .ok r m') : KeyTouched F m.fs m'.fs := by
  unfold Keychain.get at h
  split at h
  · unfold Keychain.getFromKeychain at h
    obtain ⟨id, m₁, hid, h⟩ := bind_eq_ok.mp h
    have hkeys := fabricId_keys hown hid
    have hown₁ := hown.shape hkeys.shape
    obtain ⟨k, m₂, hget, hrest⟩ := bind_eq_ok.mp h
    cases hget
    apply hkeys.trans
    cases hitem : Keychain.itemGet id m₁.keychain with
    | error e =>
        simp only [hitem] at hrest
        exact fallBack_keys hown₁ hrest
    | ok found =>
        cases found with
        | none =>
            simp only [hitem] at hrest
            exact fallBack_keys hown₁ hrest
        | some raw =>
            simp only [hitem] at hrest
            obtain ⟨_, m₃, hremove, hend⟩ := bind_eq_ok.mp hrest
            cases hend
            exact removeSecret_keys hown₁ hremove
  · unfold Keychain.getFromFile at h
    obtain ⟨found, m₁, hlook, h⟩ := bind_eq_ok.mp h
    obtain ⟨_, rfl⟩ := look_eq_ok.mp hlook
    cases found with
    | some raw =>
        cases h
        exact KeyTouched.refl _ _
    | none => cases h

/-- Composing an anchor touches the key files only. -/
theorem compose_keys {F : Path} {raw : Keychain.Secret} {n : Nat} {tip : Bytes}
    {m m' : Machine} {r : AnchorPayload × AnchorFile} (hown : Owned st m.fs F)
    (h : compose A st raw n tip m = .ok r m') : KeyTouched F m.fs m'.fs := by
  unfold compose at h
  rw [bind_apply, look_get] at h
  obtain ⟨id, m₁, hid, hrest⟩ := bind_eq_ok.mp h
  obtain ⟨head, m₂, hhead, hend⟩ := bind_eq_ok.mp hrest
  obtain ⟨_, rfl⟩ := look_eq_ok.mp hhead
  cases hend
  exact fabricId_keys hown hid

/-- The steps of signing. -/
theorem signing_steps {cwd : Path} {out : OutPath} {m m' : Machine} {payload : AnchorPayload}
    {file : AnchorFile} {note : Option Bytes}
    (h : signing A st cwd out m = .ok (payload, file, note) m') :
    checkOutsideFrom st cwd out m.fs = .ok () ∧ ∃ raw place n tip m₁,
      Keychain.get st m = .ok (raw, place, note) m₁ ∧
        compose A st raw n tip m₁ = .ok (payload, file) m' := by
  unfold signing at h
  obtain ⟨_, m₁, hcheck, hsign⟩ := bind_eq_ok.mp h
  obtain ⟨hpass, rfl⟩ := look_eq_ok.mp hcheck
  obtain ⟨⟨raw, place, note'⟩, m₂, hkey, hrest⟩ := bind_eq_ok.mp hsign
  obtain ⟨⟨n, tip⟩, m₃, htip, hlast⟩ := bind_eq_ok.mp hrest
  obtain ⟨_, rfl⟩ := look_eq_ok.mp htip
  obtain ⟨⟨payload', file'⟩, m₄, hcompose, hend⟩ := bind_eq_ok.mp hlast
  cases hend
  exact ⟨hpass, raw, place, n, tip, _, hkey, hcompose⟩

/-- **Signing** changes no directory and no link, and only a path that the
check passed is signed for. -/
theorem signing_ok {cwd : Path} {out : OutPath} {m m' : Machine}
    {r : AnchorPayload × AnchorFile × Option Bytes} (h : signing A st cwd out m = .ok r m') :
    checkOutsideFrom st cwd out m.fs = .ok () ∧
      ∀ F, Owned st m.fs F → KeyTouched F m.fs m'.fs := by
  obtain ⟨payload, file, note⟩ := r
  obtain ⟨hpass, raw, place, n, tip, m₁, hkey, hcompose⟩ := signing_steps h
  refine ⟨hpass, ?_⟩
  intro F hown
  have hkeys := get_keys hown hkey
  exact hkeys.trans (compose_keys (hown.shape hkeys.shape) hcompose)

/-! ## Paths of proper names -/

/-- A path of plain names is its own normal form. -/
theorem normalize_of_names {p : Path} (h : ∀ n ∈ p, ValidName n) : normalize p = p := by
  have hfold : ∀ (q acc : Path), (∀ n ∈ q, ValidName n) →
      q.foldl (fun out c =>
        if c = dot then out else if c = dotdot then out.dropLast else out ++ [c]) acc =
        acc ++ q := by
    intro q
    induction q with
    | nil =>
        intro acc _
        simp
    | cons n q ih =>
        intro acc hq
        have hn := hq n List.mem_cons_self
        rw [List.foldl_cons, if_neg hn.2.1, if_neg hn.2.2.1,
          ih _ fun a ha => hq a (List.mem_cons_of_mem _ ha)]
        simp
  exact hfold p [] h

theorem canonicalize_of_dir {fs : Fs} {p : Path} (h : fs.get p = some .dir) :
    canonicalize fs p = .ok p :=
  canonicalize_eq_ok.mpr ⟨Fs.resolve_of_get h (by simp), by rw [h]; simp⟩

/-- What the search from a path that is not absolute finds, the search from the
root finds too, unless it finds nothing. -/
theorem deepest_relative {cwd up tail : Path} {fs : Fs} :
    ((OutPath.deepest cwd fs false up tail).1 ≠ [] →
      deepest fs (up ++ cwd.reverse) tail = (cwd ++ (OutPath.deepest cwd fs false up tail).1,
        (OutPath.deepest cwd fs false up tail).2)) ∧
    ((OutPath.deepest cwd fs false up tail).1 = [] →
      (∀ s, s ≠ [] → s <:+ up → ¬ (canonicalize fs (cwd ++ s.reverse)).isOk = true) ∧
        deepest fs (up ++ cwd.reverse) tail = deepest fs cwd.reverse (up.reverse ++ tail)) := by
  induction up generalizing tail with
  | nil =>
      refine ⟨fun h => absurd rfl h, fun _ => ⟨?_, rfl⟩⟩
      intro s hs hsuffix
      exact absurd (List.suffix_nil.mp hsuffix) hs
  | cons n up ih =>
      have hcan : OutPath.canonicalize cwd fs ⟨false, (n :: up).reverse⟩ =
          canonicalize fs (cwd ++ (n :: up).reverse) := by
        simp [OutPath.canonicalize, OutPath.full]
      have hback : (n :: (up ++ cwd.reverse)).reverse = cwd ++ (n :: up).reverse := by simp
      have hfrom : OutPath.deepest cwd fs false (n :: up) tail =
          if (canonicalize fs (cwd ++ (n :: up).reverse)).isOk then ((n :: up).reverse, tail)
          else OutPath.deepest cwd fs false up (n :: tail) := by
        rw [← hcan]
        rfl
      have hroot : deepest fs (n :: (up ++ cwd.reverse)) tail =
          if (canonicalize fs (cwd ++ (n :: up).reverse)).isOk then
            (cwd ++ (n :: up).reverse, tail)
          else deepest fs (up ++ cwd.reverse) (n :: tail) := by
        rw [← hback]
        rfl
      rw [List.cons_append, hfrom, hroot]
      by_cases h : (canonicalize fs (cwd ++ (n :: up).reverse)).isOk = true
      · rw [if_pos h, if_pos h]
        refine ⟨fun _ => rfl, fun hnil => ?_⟩
        simp at hnil
      · rw [if_neg h, if_neg h]
        refine ⟨ih.1, fun hnil => ?_⟩
        obtain ⟨hnone, hdeep⟩ := ih.2 hnil
        refine ⟨?_, by rw [hdeep, List.reverse_cons, List.append_assoc, List.singleton_append]⟩
        intro s hs hsuffix
        rcases List.suffix_cons_iff.mp hsuffix with rfl | hrest
        · exact h
        · exact hnone s hs hrest

/-- A file with a proper name lands in the directory that was made, and its
place has no `..`. -/
theorem placed_of_names {fs : Fs} {start parent q : Path} {n : Name} {w w' : World} {u : Unit}
    (hstart : ∀ a ∈ start, ValidName a) (hparent : ∀ a ∈ parent, ValidName a) (hn : ValidName n)
    (hshape : Fs.SameShape fs w.fs) (hmade : createDirAll (start ++ parent) w = .ok u w')
    (hq : w'.fs.resolve false (start ++ parent ++ [n]) = .ok q) :
    ∃ base, canonicalize fs (deepest fs (parent.reverse ++ start.reverse) []).1 = .ok base ∧
      q = base ++ (deepest fs (parent.reverse ++ start.reverse) []).2 ++ [n] ∧
      normalize q = q := by
  unfold createDirAll at hmade
  rw [List.reverse_append] at hmade
  obtain ⟨base, hbase, hleads⟩ := createDirAllRev_place (by
    intro a ha
    rcases List.mem_append.mp ha with ha | ha
    · exact hparent a (List.mem_reverse.mp ha)
    · exact hstart a (List.mem_reverse.mp ha)) hshape hmade
  have hback : (parent.reverse ++ start.reverse).reverse = start ++ parent := by simp
  rw [hback] at hleads
  have hqc := Except.ok.inj (hq.symm.trans (Fs.resolve_in hn hleads))
  refine ⟨base, hbase, hqc, ?_⟩
  apply normalize_of_names
  intro a ha
  rw [hqc] at ha
  rcases List.mem_append.mp ha with ha | ha
  · exact w'.fs.valid_of_get (Fs.resolve_dot hleads) ha
  · rw [List.mem_singleton.mp ha]
    exact hn

/-- **The check looks where the file lands**, unless the path is not absolute
and no part of it is there; then the file lands below the current directory. -/
theorem candidate_of_names {cwd : Path} {out : OutPath} {fs : Fs} {w w' : World} {q : Path}
    {u : Unit} (hcwd : fs.get cwd = some .dir) (hnamed : out.comps ≠ [])
    (hnames : ∀ n ∈ out.comps, ValidName n) (hshape : Fs.SameShape fs w.fs)
    (hmade : createDirAll (out.full cwd).dropLast w = .ok u w')
    (hplace : w'.fs.resolve false (out.full cwd) = .ok q) :
    out.candidate cwd fs = ⟨true, q⟩ ∨
      (out.absolute = false ∧ q = cwd ++ out.comps ∧
        ∀ pre, pre ≠ [] → pre <+: out.comps.dropLast →
          ¬ (canonicalize fs (cwd ++ pre)).isOk = true) := by
  obtain ⟨absolute, comps⟩ := out
  obtain ⟨parent, n, rfl⟩ : ∃ parent n, comps = parent ++ [n] :=
    ⟨_, _, (List.dropLast_append_getLast hnamed).symm⟩
  have hn : ValidName n := hnames n (by simp)
  have hparent : ∀ a ∈ parent, ValidName a := fun a ha => hnames a (List.mem_append_left _ ha)
  have hfile : fileName (parent ++ [n]) = some n := by
    simp [fileName, hn.2.2.1]
  have hclean := normalize_of_names hparent
  cases absolute with
  | true =>
      left
      simp only [OutPath.full, if_true, List.dropLast_concat] at hmade hplace
      obtain ⟨base, hbase, hq, hnormal⟩ := @placed_of_names fs [] _ _ _ _ _ _ (by simp) hparent hn
        hshape (by simpa using hmade) (by simpa using hplace)
      rw [List.reverse_nil, List.append_nil] at hbase hq
      unfold OutPath.candidate OutPath.resolvedParent
      simp only [List.dropLast_concat, hclean, deepest_absolute, canonicalize_absolute, hbase,
        hfile, Option.toList_some]
      rw [← hq, hnormal]
  | false =>
      have hdrop : (cwd ++ (parent ++ [n])).dropLast = cwd ++ parent := by
        rw [← List.append_assoc, List.dropLast_concat]
      simp only [OutPath.full, Bool.false_eq_true, if_false, hdrop] at hmade hplace
      obtain ⟨base, hbase, hq, hnormal⟩ := placed_of_names (fun a ha => fs.valid_of_get hcwd ha)
        hparent hn hshape hmade (by rw [List.append_assoc]; exact hplace)
      obtain ⟨hfound, hmissing⟩ := @deepest_relative cwd parent.reverse [] fs
      by_cases hnil : (OutPath.deepest cwd fs false parent.reverse []).1 = []
      · right
        obtain ⟨hnone, hdeep⟩ := hmissing hnil
        have hcan : canonicalize fs cwd = .ok cwd := canonicalize_of_dir hcwd
        have hhere : deepest fs cwd.reverse (parent ++ []) = (cwd, parent ++ []) := by
          have hok : (canonicalize fs cwd.reverse.reverse).isOk = true := by
            rw [List.reverse_reverse, hcan]
            rfl
          rw [deepest_of_ok hok, List.reverse_reverse]
        rw [hdeep, List.reverse_reverse, hhere] at hbase hq
        obtain rfl := Except.ok.inj (hcan.symm.trans hbase)
        refine ⟨rfl, by rw [hq]; simp, ?_⟩
        intro pre hpre hbegins
        rw [List.dropLast_concat] at hbegins
        have hsuffix : pre.reverse <:+ parent.reverse := List.reverse_suffix.mpr hbegins
        have hno := hnone pre.reverse (by simpa using hpre) hsuffix
        rwa [List.reverse_reverse] at hno
      · left
        have hdeep := hfound hnil
        rw [hdeep] at hbase hq
        have hcan : OutPath.canonicalize cwd fs
            ⟨false, (OutPath.deepest cwd fs false parent.reverse []).1⟩ = .ok base := by
          unfold OutPath.canonicalize
          rw [if_neg (fun hboth => hnil hboth.2)]
          exact hbase
        unfold OutPath.candidate OutPath.resolvedParent
        simp only [List.dropLast_concat, hclean, hcan, hfile, Option.toList_some]
        rw [← hq, hnormal]

/-! ## Where the anchor is written -/

variable (A st)

/-- Where `create` put the anchor. -/
def written (cwd : Path) (out : OutPath) (m : Machine) : Option Path :=
  match signing A st cwd out m with
  | .error _ _ => none
  | .ok (_, file, _) m₁ => match atomicWrite (out.full cwd) (A.anchorToJson file) m₁ with
    | .error _ _ => none
    | .ok _ m₂ => (m₁.since m₂).findSome? Event.target

/-- A path that the check judges as the system does: it names a file by proper
names, without `..`; it starts at the root, or with a directory that is there,
or in a directory outside the fabric; and the fabric's own files are no links. -/
structure Straight (cwd : Path) (out : OutPath) (fs : Fs) : Prop where
  named : out.comps ≠ []
  names : ∀ n ∈ out.comps, ValidName n
  placed : out.absolute = true ∨
    (∃ n, out.comps.dropLast.head? = some n ∧ (canonicalize fs (cwd ++ [n])).isOk = true) ∨
      ¬ fabricPlace st fs <+: cwd
  owned : ∃ F, Owned st fs F

/-- A tree in which the path is looked up: it has the directories and the links
there are before the call.  Where the fabric is not there or its own files are
links, it is the tree that signing leaves. -/
def LookedUp (cwd : Path) (out : OutPath) (m : Machine) (fs : Fs) : Prop :=
  ((∃ F, Owned st m.fs F) ∧ Fs.SameShape m.fs fs) ∨
    ((¬ ∃ F, Owned st m.fs F) ∧ fs = (finalState (signing A st cwd out m)).fs)

/-- The path leads to no place inside the fabric, links being followed and `..`
being the directory above; files do not matter to it. -/
def LeadsOutside (cwd : Path) (out : OutPath) (m : Machine) : Prop :=
  ∀ w q, LookedUp A st cwd out m w.fs → landing (out.full cwd) w = some q →
    ¬ fabricPlace st m.fs <+: q

variable {A st}

/-- Signing leaves one of these trees, and a path leads to one place in all. -/
theorem lookedUp_of_signing {cwd : Path} {out : OutPath} {m m₁ : Machine}
    {r : AnchorPayload × AnchorFile × Option Bytes} (h : signing A st cwd out m = .ok r m₁) :
    LookedUp A st cwd out m m₁.fs ∧
      ∀ fs, LookedUp A st cwd out m fs → Fs.SameShape m₁.fs fs := by
  by_cases hown : ∃ F, Owned st m.fs F
  · obtain ⟨F, hF⟩ := hown
    have hshape := ((signing_ok h).2 F hF).shape
    refine ⟨Or.inl ⟨⟨F, hF⟩, hshape⟩, ?_⟩
    intro fs hfs
    rcases hfs with ⟨-, hsame⟩ | ⟨hnot, -⟩
    · exact hshape.symm.trans hsame
    · exact absurd ⟨F, hF⟩ hnot
  · have hfinal : (finalState (signing A st cwd out m)).fs = m₁.fs := by rw [h]; rfl
    refine ⟨Or.inr ⟨hown, hfinal.symm⟩, ?_⟩
    intro fs hfs
    rcases hfs with ⟨hyes, -⟩ | ⟨-, rfl⟩
    · exact absurd hyes hown
    · rw [hfinal]
      exact fun _ => Or.inl rfl

/-- A `create` that succeeds wrote the anchor where the path leads. -/
theorem createFrom_written {cwd : Path} {out : OutPath} {m m' : Machine} {o : CreateOutcome}
    (h : createFrom A st cwd out m = .ok o m') :
    ∃ r m₁ w q, signing A st cwd out m = .ok r m₁ ∧
      createDirAll (out.full cwd).dropLast m₁.toWorld = .ok () w ∧
      w.fs.resolve false (out.full cwd) = .ok q ∧ w.fs.get q ≠ some .dir ∧
      written A st cwd out m = some q := by
  unfold createFrom at h
  obtain ⟨⟨payload, file, note⟩, m₁, hsign, hrest⟩ := bind_eq_ok.mp h
  obtain ⟨_, m₂, hwrite, _⟩ := bind_eq_ok.mp hrest
  obtain ⟨w, q, hmade, hplace, hfiled, htarget⟩ := Store.replaceFile_lands
    (fun k => validName_tmpName (by decide) (by decide)) hwrite
  refine ⟨(payload, file, note), m₁, w, q, hsign, hmade, hplace, hfiled.1, ?_⟩
  unfold written
  rw [hsign]
  simp only
  rw [show atomicWrite (out.full cwd) (A.anchorToJson file) m₁ = .ok _ m₂ from hwrite]
  exact htarget

/-- The place of an owned fabric. -/
theorem fabricPlace_of_owned {fs : Fs} {F : Path} (h : Owned st fs F) : fabricPlace st fs = F := by
  have hcan : canonicalize fs st.fabricDir = .ok F :=
    canonicalize_eq_ok.mpr ⟨h.leads, by rw [h.dir]; simp⟩
  unfold fabricPlace
  rw [hcan]

/-- What the check passed on a straight path was written outside. -/
theorem written_outside_of_straight {cwd : Path} {out : OutPath} {m m' : Machine}
    {o : CreateOutcome} {q : Path} (hcwd : m.fs.get cwd = some .dir)
    (hstraight : Straight st cwd out m.fs) (h : createFrom A st cwd out m = .ok o m')
    (hq : written A st cwd out m = some q) : ¬ fabricPlace st m.fs <+: q := by
  obtain ⟨r, m₁, w, q', hsign, hmade, hplace, hnodir, hwritten⟩ := createFrom_written h
  obtain rfl := Option.some.inj (hwritten.symm.trans hq)
  obtain ⟨hcheck, hkeys⟩ := signing_ok hsign
  obtain ⟨F, hown⟩ := hstraight.owned
  have hshape := (hkeys F hown).shape
  have hplaceF := fabricPlace_of_owned hown
  rcases candidate_of_names hcwd hstraight.named hstraight.names hshape hmade hplace with
    hcand | ⟨hrelative, hbelow, hmissing⟩
  · intro hinside
    unfold checkOutsideFrom at hcheck
    simp only [hcand, true_and] at hcheck
    rw [if_pos hinside] at hcheck
    cases hcheck
  · -- nothing of the path is there: the fabric is neither on the way nor the file
    intro hinside
    rw [hplaceF, hbelow] at hinside
    have houtside : ¬ F <+: cwd := by
      rcases hstraight.placed with habsolute | ⟨n, hhead, hthere⟩ | hout
      · rw [hrelative] at habsolute
        cases habsolute
      · have hfirst : [n] <+: out.comps.dropLast := by
          cases hparent : out.comps.dropLast with
          | nil =>
              rw [hparent] at hhead
              cases hhead
          | cons a rest =>
              rw [hparent] at hhead
              cases hhead
              exact ⟨rest, rfl⟩
        exact absurd hthere (hmissing [n] (by simp) hfirst)
      · rwa [hplaceF] at hout
    rcases List.prefix_or_prefix_of_prefix hinside (List.prefix_append cwd out.comps) with
      habove | ⟨pre, rfl⟩
    · exact houtside habove
    · have hpre : pre ≠ [] := by
        rintro rfl
        exact houtside (by simp)
      have hbegins := (List.prefix_append_right_inj cwd).mp hinside
      rw [← List.dropLast_append_getLast hstraight.named] at hbegins
      rcases List.prefix_concat_iff.mp hbegins with hwhole | hpart
      · rw [List.dropLast_append_getLast hstraight.named] at hwhole
        apply hnodir
        rw [hbelow, ← hwhole]
        have hmadeSome := (createDirAll_made.ok hmade).1
        exact hmadeSome.newDirs.sub (hshape.dir hown.dir)
      · apply hmissing pre hpre hpart
        rw [canonicalize_of_dir hown.dir]
        rfl

variable (A st)

/-- **When an anchor lands outside the fabric.**  What a successful `create`
wrote lies outside the fabric directory exactly when the path is one that the
check judges as the system does, or leads outside anyway. -/
theorem written_outside_iff (cwd : Path) (out : OutPath) {m m' : Machine} {o : CreateOutcome}
    (hcwd : m.fs.get cwd = some .dir) (h : createFrom A st cwd out m = .ok o m') :
    (∀ q, written A st cwd out m = some q → ¬ fabricPlace st m.fs <+: q) ↔
      Straight st cwd out m.fs ∨ LeadsOutside A st cwd out m := by
  obtain ⟨r, m₁, w, q, hsign, hmade, hplace, _, hwritten⟩ := createFrom_written h
  obtain ⟨hthis, hsame⟩ := lookedUp_of_signing hsign
  have hlanding : landing (out.full cwd) m₁.toWorld = some q := by
    unfold landing
    simp only [hmade, hplace]
    rfl
  constructor
  · intro houtside
    right
    intro w' q' hlooked hq'
    obtain rfl := landing_shape (hsame w'.fs hlooked) hlanding hq'
    exact houtside q' hwritten
  · rintro (hstraight | hleads) q' hq'
    · exact written_outside_of_straight hcwd hstraight h hq'
    · obtain rfl := Option.some.inj (hwritten.symm.trans hq')
      exact hleads m₁.toWorld q hthis hlanding

/-! ## A climbing path -/

/-- The fabric with a signing key, and a directory beside it. -/
def besideFabric : Fs :=
  Fs.build (Store.fabricNodes ⟨[str "w"]⟩ [] ++
    [(fabricIdPath ⟨[str "w"]⟩, Store.plainFile (str "fabric")),
     (Keychain.secretPath ⟨[str "w"]⟩, Store.plainFile (hexEncode anchorSeed)),
     ([str "w", str "sub"], .dir)])

/-- The path `../.respawn/x.json`. -/
def climbing : OutPath := ⟨false, [dotdot, FABRIC_DIR, str "x.json"]⟩

/-- From a directory beside the fabric, `..` leads into it and past the check. -/
theorem climbing_written_inside :
    (∃ o m', createFrom anchorCrates ⟨[str "w"]⟩ [str "w", str "sub"] climbing
        (atSecond 1 (Machine.start besideFabric)) = .ok o m') ∧
      ¬ ∀ q, written anchorCrates ⟨[str "w"]⟩ [str "w", str "sub"] climbing
          (atSecond 1 (Machine.start besideFabric)) = some q →
        ¬ fabricPlace ⟨[str "w"]⟩ (atSecond 1 (Machine.start besideFabric)).fs <+: q := by
  constructor
  · have hrun : succeeded (createFrom anchorCrates ⟨[str "w"]⟩ [str "w", str "sub"] climbing
        (atSecond 1 (Machine.start besideFabric))) = true := by decide +kernel
    obtain ⟨o, ho⟩ := exists_of_succeeded hrun
    exact ⟨o, _, ho⟩
  · intro h
    have hwritten : written anchorCrates ⟨[str "w"]⟩ [str "w", str "sub"] climbing
        (atSecond 1 (Machine.start besideFabric)) =
          some [str "w", FABRIC_DIR, str "x.json"] := by decide +kernel
    apply h _ hwritten
    decide +kernel

/-- The path of the example is straight. -/
theorem straight_beside : Straight ⟨[str "w"]⟩ [str "w", str "sub"]
    ⟨true, [str "w", str "sub", str "one"]⟩ besideFabric where
  named := by simp
  names := by decide
  placed := Or.inl rfl
  owned := by
    refine ⟨[str "w", FABRIC_DIR], by decide +kernel, by decide +kernel, ?_⟩
    intro n hn t ht
    have hkey : besideFabric.get [str "w", FABRIC_DIR, str "anchor.secret"] =
        some (Store.plainFile (hexEncode anchorSeed)) := by decide +kernel
    have hid : besideFabric.get [str "w", FABRIC_DIR, str "fabric_id"] =
        some (Store.plainFile (str "fabric")) := by decide +kernel
    rcases List.mem_cons.mp hn with rfl | hn
    · cases hkey.symm.trans ht
    · rw [List.mem_singleton.mp hn] at ht
      cases hid.symm.trans ht

/-- A straight path beside the fabric has its anchor written outside of it. -/
theorem written_outside_beside :
    ∃ o m', createFrom anchorCrates ⟨[str "w"]⟩ [str "w", str "sub"]
        ⟨true, [str "w", str "sub", str "one"]⟩ (atSecond 1 (Machine.start besideFabric)) =
          .ok o m' ∧
      ∀ q, written anchorCrates ⟨[str "w"]⟩ [str "w", str "sub"]
          ⟨true, [str "w", str "sub", str "one"]⟩ (atSecond 1 (Machine.start besideFabric)) =
            some q →
        ¬ fabricPlace ⟨[str "w"]⟩ (atSecond 1 (Machine.start besideFabric)).fs <+: q := by
  have hrun : succeeded (createFrom anchorCrates ⟨[str "w"]⟩ [str "w", str "sub"]
      ⟨true, [str "w", str "sub", str "one"]⟩ (atSecond 1 (Machine.start besideFabric))) =
        true := by decide +kernel
  obtain ⟨o, ho⟩ := exists_of_succeeded hrun
  refine ⟨o, _, ho, ?_⟩
  apply (written_outside_iff anchorCrates ⟨[str "w"]⟩ [str "w", str "sub"]
    ⟨true, [str "w", str "sub", str "one"]⟩ (by decide +kernel) ho).mpr
  exact Or.inl straight_beside

end Anchor

end Respawn
