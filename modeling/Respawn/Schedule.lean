import Respawn.Location

/-!
# Scheduled anchors

`schedule` installs an agent that runs `anchor next` in a directory of anchors.
`plan` checks beforehand that the directory lies outside the fabric, by a rule
of its own: it looks up the directory that contains it, and asks nothing if
that one is missing.  `next` makes the directory and lets `create` check a file
in it.

* `dirPlace_made` — making directories does not move the place where `create`
  looks, unless a link led nowhere before.
* `not_refused_of_judged` — where the directory that contains it is there, the
  two rules are one.
* `sameRule_iff` — elsewhere `next` is not refused when `create` would have
  accepted the file before the directory was made.
-/

namespace FileTree

open ByteStr StateLogic

namespace Fs

variable {fs : Fs}

/-- A step that leads somewhere does so in every larger tree. -/
theorem stepInto_kept {follow : Bool} {fs' : Fs} {c q : Path} {r : List Name}
    {chase chase' : Path → Bytes → List Name → Except Errno Path}
    (hsub : ∀ p x, fs.get p = some x → fs'.get p = some x) (hq : fs.get q ≠ none)
    (hchase : ∀ c t r, chase c t r = .ok q → chase' c t r = .ok q)
    (h : stepInto fs follow chase c r = .ok q) : stepInto fs' follow chase' c r = .ok q := by
  induction r generalizing c with
  | nil => simpa [stepInto] using h
  | cons s r ih =>
      unfold stepInto at h ⊢
      by_cases hs : s = dot
      · rw [if_pos hs] at h ⊢
        exact ih h
      · rw [if_neg hs] at h ⊢
        by_cases hdd : s = dotdot
        · rw [if_pos hdd] at h ⊢
          exact ih h
        · rw [if_neg hdd] at h ⊢
          cases hx : fs.get (c ++ [s]) with
          | none =>
              simp only [hx] at h
              split at h
              · cases h
              · split at h
                · cases h
                  exact absurd hx hq
                · cases h
          | some x =>
              simp only [hx] at h
              rw [hsub _ _ hx]
              cases x with
              | dir => exact ih h
              | file d => exact h
              | symlink t =>
                  simp only at h ⊢
                  split at h
                  case isTrue hend => rw [if_pos hend]; exact h
                  case isFalse hend => rw [if_neg hend]; exact hchase _ _ _ h

/-- So does the chase of a link. -/
theorem chaseLink_kept {follow : Bool} {fs' : Fs} {k : Nat} {c q : Path} {t : Bytes}
    {r : List Name} (hsub : ∀ p x, fs.get p = some x → fs'.get p = some x)
    (hq : fs.get q ≠ none) (h : chaseLink fs follow k c t r = .ok q) :
    chaseLink fs' follow k c t r = .ok q := by
  induction k generalizing c t r with
  | zero => cases h
  | succ k ih =>
      unfold chaseLink at h ⊢
      exact stepInto_kept hsub hq (fun _ _ _ h => ih h) h

/-- A path to a node keeps its meaning while nodes are added. -/
theorem resolve_kept {follow : Bool} {fs' : Fs} {p q : Path}
    (hsub : ∀ p x, fs.get p = some x → fs'.get p = some x) (hq : fs.get q ≠ none)
    (h : fs.resolve follow p = .ok q) : fs'.resolve follow p = .ok q :=
  stepInto_kept hsub hq (fun _ _ _ h => chaseLink_kept hsub hq h) h

/-- The tree with the directories of a path. -/
def withDirs (fs : Fs) (p : Path) : Fs := (finalState (createDirAll p ⟨fs, [], 0⟩)).fs

end Fs

/-! ## The directories that are made depend on the tree alone -/

variable {p : Path} {v w w' : World} {u : Unit}

/-- A directory that is made is made on every machine with the same tree. -/
theorem mkdir_tree (hsame : v.fs = w.fs) (h : mkdir p w = .ok u w') :
    ∃ v', mkdir p v = .ok () v' ∧ v'.fs = w'.fs := by
  obtain ⟨r, hr, hnone, rfl⟩ := mkdir_ok h
  refine ⟨v.perform (.mkdir r), ?_, by simp [hsame]⟩
  simp [mkdir, hsame, hr, hnone]

/-- A directory that cannot be made fails alike on every machine with the same
tree. -/
theorem mkdir_tree_error {e : Errno} (hsame : v.fs = w.fs) (h : mkdir p w = .error e w') :
    mkdir p v = .error e v := by
  unfold mkdir at h ⊢
  rw [hsame]
  cases hr : w.fs.resolve false p with
  | error e' =>
      simp only [hr] at h ⊢
      cases h
      rfl
  | ok q =>
      simp only [hr] at h ⊢
      by_cases hq : (w.fs.get q).isSome = true
      · rw [if_pos hq] at h ⊢
        cases h
        rfl
      · rw [if_neg hq] at h
        cases h

/-- Making a directory depends on the tree alone. -/
theorem mkdirOrFound_tree (hsame : v.fs = w.fs) (h : mkdirOrFound p w = .ok u w') :
    ∃ v', mkdirOrFound p v = .ok () v' ∧ v'.fs = w'.fs := by
  unfold mkdirOrFound at h ⊢
  cases hmk : mkdir p w with
  | ok _ w₁ =>
      simp only [hmk] at h
      cases h
      obtain ⟨v', hv, htree⟩ := mkdir_tree hsame hmk
      exact ⟨v', by simp only [hv], htree⟩
  | error e w₁ =>
      have hw := mkdir_error hmk
      subst hw
      simp only [hmk] at h
      simp only [mkdir_tree_error hsame hmk, hsame]
      by_cases hdir : w₁.fs.isDir p = true
      · rw [if_pos hdir] at h ⊢
        cases h
        exact ⟨v, rfl, hsame⟩
      · rw [if_neg hdir] at h
        cases h

/-- So does making a directory and its parents. -/
theorem createDirAllRev_tree {up : Path} (hsame : v.fs = w.fs)
    (h : createDirAllRev up w = .ok u w') :
    ∃ v', createDirAllRev up v = .ok () v' ∧ v'.fs = w'.fs := by
  induction up generalizing v w w' with
  | nil =>
      cases h
      exact ⟨v, rfl, hsame⟩
  | cons n up ih =>
      unfold createDirAllRev at h ⊢
      cases hmk : mkdir (n :: up).reverse w with
      | ok _ w₁ =>
          rw [hmk] at h
          obtain ⟨v₁, hv, -⟩ := mkdir_tree hsame hmk
          rw [hv]
          exact mkdirOrFound_tree hsame h
      | error e w₁ =>
          have hw := mkdir_error hmk
          subst hw
          rw [hmk] at h
          rw [mkdir_tree_error hsame hmk]
          cases e with
          | notFound =>
              obtain ⟨_, w₂, hup, hagain⟩ := bind_eq_ok.mp h
              obtain ⟨v₂, hv, htree⟩ := ih hsame hup
              obtain ⟨v', hv', htree'⟩ := mkdirOrFound_tree htree hagain
              exact ⟨v', bind_eq_ok.mpr ⟨_, v₂, hv, hv'⟩, htree'⟩
          | _ => exact mkdirOrFound_tree hsame h

/-- Where directories were made, the tree is the one with them. -/
theorem withDirs_of_made (h : createDirAll p w = .ok u w') : w'.fs = w.fs.withDirs p := by
  have hfrom : (⟨w.fs, [], 0⟩ : World).fs = w.fs := rfl
  obtain ⟨v', hv, htree⟩ := createDirAllRev_tree hfrom h
  unfold Fs.withDirs
  rw [show createDirAll p ⟨w.fs, [], 0⟩ = .ok () v' from hv]
  exact htree.symm

end FileTree

namespace Respawn

open ByteStr FileTree StateLogic

namespace Anchor

/-- A path with the text `s` joined to it. -/
def OutPath.push (p : OutPath) (s : Bytes) : OutPath :=
  let pieces := (s.splitOn slash).filter fun n => n ≠ [] ∧ n ≠ dot
  if s.head? = some slash then ⟨true, pieces⟩ else ⟨p.absolute, p.comps ++ pieces⟩

/-- A path with one more name. -/
def OutPath.join (p : OutPath) (n : Name) : OutPath := ⟨p.absolute, p.comps ++ [n]⟩

/-- A path as `normalize` leaves it. -/
def OutPath.clean (p : OutPath) : OutPath := ⟨p.absolute, normalize p.comps⟩

/-! ## The next anchor of a series -/

/-- Milliseconds since 1970, zero for an earlier clock. -/
def unixMillis (t : Int) : Nat := (t / 1000000).toNat

/-- The name of the `n`-th anchor of a millisecond. -/
def anchorName (millis n : Nat) : Name :=
  if n = 0 then str "anchor-" ++ decimal millis ++ str ".json"
  else str "anchor-" ++ decimal millis ++ str "-" ++ decimal n ++ str ".json"

variable (A : AnchorCrates) (st : Store)

/-- What `next` does before `create`: make the directory, and find a name in it
that is free. -/
def allot (cwd : Path) (dir : OutPath) : Sys OutPath := do
  io (createDirAll (dir.full cwd))
  let m ← get
  let free := (List.range 1000).find? fun n =>
    !m.fs.exists ((dir.join (anchorName (unixMillis m.clock) n)).full cwd)
  match free with
  | some n => pure (dir.join (anchorName (unixMillis m.clock) n))
  | none => throw (.corrupt (str "could not allocate a timestamped anchor name"))

/-- Mint the next chained anchor in `dir` under a timestamped name. -/
def nextFrom (cwd : Path) (dir : OutPath) : Sys (OutPath × CreateOutcome) := do
  let path ← allot cwd dir
  let out ← createFrom A st cwd path
  pure (path, out)

/-- The public key of the signing key. -/
def pubkey : Sys Bytes := do
  let (raw, _, _) ← Keychain.get st
  pure (hexEncode (A.verifyingKey raw.val))

/-! ## Where a directory is taken to be -/

/-- Where the check takes a directory to be: its deepest ancestor that exists,
by its physical path, and what lies below it. -/
def dirPlace (fs : Fs) (p : Path) : Path :=
  let (ancestor, tail) := deepest fs p.reverse []
  match canonicalize fs ancestor with
  | .ok base => base ++ tail
  | .error _ => p

/-- No link that leads nowhere stands where the path ends for now. -/
def Unlinked (fs : Fs) (p : Path) : Prop :=
  ∀ base n rest, canonicalize fs (deepest fs p.reverse []).1 = .ok base →
    (deepest fs p.reverse []).2 = n :: rest → ∀ t, fs.get (base ++ [n]) ≠ some (.symlink t)

variable {A st} {fs : Fs}

theorem isOk_of_canonicalize {p q : Path} (h : canonicalize fs p = .ok q) :
    (canonicalize fs p).isOk = true :=
  isOk_canonicalize.mpr ⟨q, h⟩

/-- What exists under a path of proper names has a directory above it. -/
theorem canonicalize_up {p q : Path} {n : Name} (hn : ValidName n)
    (h : canonicalize fs (p ++ [n]) = .ok q) :
    ∃ c, canonicalize fs p = .ok c ∧ fs.resolve false (p ++ [dot]) = .ok c ∧
      fs.get (c ++ [n]) ≠ none := by
  obtain ⟨hres, hthere⟩ := canonicalize_eq_ok.mp h
  obtain ⟨e, hentry⟩ := Fs.resolve_entry hres
  obtain ⟨c, hc, rfl⟩ := Fs.of_resolve_in hn hentry
  refine ⟨c, canonicalize_eq_ok.mpr ⟨Fs.resolve_of_dot hc, ?_⟩, hc, ?_⟩
  · rw [Fs.resolve_dot hc]
    simp
  · intro hnone
    have hfollow := Fs.resolve_follow (fun t ht => by rw [hnone] at ht; cases ht) hentry
    obtain rfl := Except.ok.inj (hres.symm.trans hfollow)
    exact hthere hnone

/-- The beginnings of a path that exists exist. -/
theorem isOk_of_append {p r : Path} (hnames : ∀ n ∈ r, ValidName n)
    (h : (canonicalize fs (p ++ r)).isOk = true) : (canonicalize fs p).isOk = true := by
  induction r using List.reverseRecOn with
  | nil => rwa [List.append_nil] at h
  | append_singleton r n ih =>
      obtain ⟨q, hq⟩ := isOk_canonicalize.mp h
      rw [← List.append_assoc] at hq
      obtain ⟨c, hc, -⟩ := canonicalize_up (hnames n (by simp)) hq
      exact ih (fun a ha => hnames a (List.mem_append_left _ ha)) (isOk_of_canonicalize hc)

/-- The search stops at an ancestor that exists, and not below. -/
theorem deepest_split (fs : Fs) (up tail : Path) :
    ∃ a r b, up.reverse = a ++ r ∧ deepest fs up tail = (a, r ++ tail) ∧
      canonicalize fs a = .ok b ∧
        ∀ n rest, r = n :: rest → ¬ (canonicalize fs (a ++ [n])).isOk = true := by
  induction up generalizing tail with
  | nil =>
      refine ⟨[], [], [], rfl, rfl, canonicalize_of_dir fs.get_root, ?_⟩
      intro n rest h
      cases h
  | cons n up ih =>
      by_cases h : (canonicalize fs (n :: up).reverse).isOk = true
      · obtain ⟨b, hb⟩ := isOk_canonicalize.mp h
        refine ⟨(n :: up).reverse, [], b, by simp, deepest_of_ok h, hb, ?_⟩
        intro n rest h
        cases h
      · obtain ⟨a, r, b, hup, hdeep, hb, hstop⟩ := ih (n :: tail)
        refine ⟨a, r ++ [n], b, by simp [hup], ?_, hb, ?_⟩
        · unfold deepest
          rw [if_neg h, hdeep]
          simp
        · intro n' rest hr
          cases r with
          | nil =>
              cases hr
              rw [List.reverse_cons, hup, List.append_nil] at h
              exact h
          | cons n₀ r =>
              cases hr
              exact hstop _ _ rfl

/-- Where the path stops to exist does not depend on how it was found. -/
theorem deepest_eq {a r tail : Path} (hnames : ∀ n ∈ r, ValidName n)
    (ha : (canonicalize fs a).isOk = true)
    (hstop : ∀ n rest, r = n :: rest → ¬ (canonicalize fs (a ++ [n])).isOk = true) :
    deepest fs (r.reverse ++ a.reverse) tail = (a, r ++ tail) := by
  induction r using List.reverseRecOn generalizing tail with
  | nil =>
      have hok : (canonicalize fs a.reverse.reverse).isOk = true := by rwa [List.reverse_reverse]
      simpa using @deepest_of_ok fs a.reverse tail hok
  | append_singleton r n ih =>
      have hmissing : ¬ (canonicalize fs (a ++ (r ++ [n]))).isOk = true := by
        intro hok
        cases hr : r ++ [n] with
        | nil => simp at hr
        | cons n' rest =>
            apply hstop n' rest hr
            rw [hr, ← List.singleton_append, ← List.append_assoc] at hok
            exact isOk_of_append (fun m hm => hnames m (by
              rw [hr]
              exact List.mem_cons_of_mem _ hm)) hok
      have hback : (r ++ [n]).reverse ++ a.reverse = n :: (r.reverse ++ a.reverse) := by simp
      rw [hback]
      unfold deepest
      rw [if_neg (by simpa using hmissing), ih (fun m hm => hnames m (List.mem_append_left _ hm))]
      · simp
      · rintro n' rest rfl
        exact hstop n' (rest ++ [n]) rfl

/-- The place of a path is that of its deepest existing part, with the rest
behind it. -/
theorem dirPlace_eq {a r b : Path} (hnames : ∀ n ∈ r, ValidName n)
    (ha : canonicalize fs a = .ok b)
    (hstop : ∀ n rest, r = n :: rest → ¬ (canonicalize fs (a ++ [n])).isOk = true) :
    dirPlace fs (a ++ r) = b ++ r := by
  unfold dirPlace
  rw [List.reverse_append, deepest_eq hnames (isOk_of_canonicalize ha) hstop]
  simp [ha]

/-- A directory that was made after the path was looked up is found by it. -/
theorem canonicalize_in {a b : Path} {n : Name} (hn : ValidName n) (ha : canonicalize fs a = .ok b)
    (hdir : fs.get (b ++ [n]) = some .dir) : canonicalize fs (a ++ [n]) = .ok (b ++ [n]) := by
  obtain ⟨hres, -⟩ := canonicalize_eq_ok.mp ha
  have hb : fs.get b = some .dir := fs.get_of_append hdir (by simp)
  have hentry := Fs.resolve_in hn (Fs.resolve_snoc_dot (fun _ _ hx => hx) hb hres)
  apply canonicalize_eq_ok.mpr
  refine ⟨Fs.resolve_follow (fun t ht => ?_) hentry, by rw [hdir]; simp⟩
  rw [hdir] at ht
  cases ht

/-- Below a path that exists, plain directories and missing ones are in their place. -/
theorem dirPlace_below {a b r : Path} (hnames : ∀ n ∈ r, ValidName n)
    (ha : canonicalize fs a = .ok b)
    (hplain : ∀ s, s ≠ [] → s <+: r → fs.get (b ++ s) = none ∨ fs.get (b ++ s) = some .dir) :
    dirPlace fs (a ++ r) = b ++ r := by
  induction r generalizing a b with
  | nil => exact dirPlace_eq hnames ha (by simp)
  | cons n r ih =>
      have hn : ValidName n := hnames n List.mem_cons_self
      rcases hplain [n] (by simp) ⟨r, rfl⟩ with hnone | hdir
      · apply dirPlace_eq hnames ha
        rintro n' rest heq hok
        cases heq
        obtain ⟨q, hq⟩ := isOk_canonicalize.mp hok
        obtain ⟨c, hc, -, hthere⟩ := canonicalize_up hn hq
        obtain rfl := Except.ok.inj (ha.symm.trans hc)
        exact hthere hnone
      · have hplain' : ∀ s, s ≠ [] → s <+: r →
            fs.get (b ++ [n] ++ s) = none ∨ fs.get (b ++ [n] ++ s) = some .dir := by
          intro s _ hbegins
          rw [List.append_assoc]
          exact hplain ([n] ++ s) (by simp) (by simpa using hbegins)
        have hnext := ih (fun m hm => hnames m (List.mem_cons_of_mem _ hm))
          (canonicalize_in hn ha hdir) hplain'
        simpa [List.append_assoc] using hnext

/-- A canonical form stays when directories are made. -/
theorem canonicalize_sub {fs' : Fs} {p q : Path} (hnew : Fs.NewDirs fs fs')
    (h : canonicalize fs p = .ok q) : canonicalize fs' p = .ok q := by
  obtain ⟨hres, hthere⟩ := canonicalize_eq_ok.mp h
  obtain ⟨x, hx⟩ := Option.ne_none_iff_exists'.mp hthere
  apply canonicalize_eq_ok.mpr
  refine ⟨Fs.resolve_kept (fun _ _ => hnew.sub) hthere hres, ?_⟩
  rw [hnew.sub hx]
  simp

/-- **Making directories does not move the place** where a path is taken to
lead, unless it ended in a link that led nowhere. -/
theorem dirPlace_made {fs' : Fs} {p : Path} (hnames : ∀ n ∈ p, ValidName n)
    (hnew : Fs.NewDirs fs fs') (hlink : Unlinked fs p) : dirPlace fs' p = dirPlace fs p := by
  obtain ⟨a, r, b, hp, hdeep, hb, hstop⟩ := deepest_split fs p.reverse []
  rw [List.reverse_reverse] at hp
  rw [List.append_nil] at hdeep
  subst hp
  have hr : ∀ n ∈ r, ValidName n := fun n hn => hnames n (List.mem_append_right _ hn)
  rw [dirPlace_eq hr hb hstop]
  apply dirPlace_below hr (canonicalize_sub hnew hb)
  intro s hs hbegins
  obtain ⟨n, s, rfl⟩ := List.exists_cons_of_ne_nil hs
  obtain ⟨rest, rfl⟩ := hbegins
  -- nothing was there, not even a link
  have hfree : fs.get (b ++ [n]) = none := by
    cases hx : fs.get (b ++ [n]) with
    | none => rfl
    | some x =>
        have hplain : ∀ t, fs.get (b ++ [n]) ≠ some (.symlink t) :=
          hlink b n (s ++ rest) (by rw [hdeep]; exact hb) (by rw [hdeep]; rfl)
        have hdir : fs.get b = some .dir := fs.get_of_append hx (by simp)
        obtain ⟨hres, -⟩ := canonicalize_eq_ok.mp hb
        have hentry := Fs.resolve_in (hr n (by simp))
          (Fs.resolve_snoc_dot (fun _ _ hx => hx) hdir hres)
        apply absurd _ (hstop n (s ++ rest) rfl)
        apply isOk_of_canonicalize
        exact canonicalize_eq_ok.mpr ⟨Fs.resolve_follow hplain hentry, by rw [hx]; simp⟩
  have hbelow : fs.get (b ++ n :: s) = none := by
    cases s with
    | nil => exact hfree
    | cons n' s =>
        rw [← List.singleton_append, ← List.append_assoc]
        exact fs.get_append_eq_none (by rw [hfree]; simp) (by simp)
  rcases hnew (b ++ n :: s) with heq | ⟨-, hdir⟩
  · exact Or.inl (heq.trans hbelow)
  · exact Or.inr hdir

/-! ## The check of a file in a directory -/

/-- The place of a path of plain names has plain names. -/
theorem dirPlace_names {p : Path} (hnames : ∀ n ∈ p, ValidName n) :
    ∀ n ∈ dirPlace fs p, ValidName n := by
  obtain ⟨a, r, b, hp, -, hb, hstop⟩ := deepest_split fs p.reverse []
  rw [List.reverse_reverse] at hp
  subst hp
  rw [dirPlace_eq (fun n hn => hnames n (List.mem_append_right _ hn)) hb hstop]
  intro n hn
  rcases List.mem_append.mp hn with hbase | htail
  · obtain ⟨x, hx⟩ := Option.ne_none_iff_exists'.mp (canonicalize_eq_ok.mp hb).2
    exact fs.valid_of_get hx hbase
  · exact hnames n (List.mem_append_right _ htail)

theorem fileName_concat {p : Path} {n : Name} (hn : ValidName n) :
    fileName (p ++ [n]) = some n := by
  simp [fileName, hn.2.2.1]

/-- A guard passes when its condition is false. -/
theorem refused_iff {c : Prop} [Decidable c] {e : Error} :
    (if c then Except.error e else .ok ()) = .ok () ↔ ¬ c := by
  by_cases h : c
  · rw [if_pos h]
    exact ⟨fun hok => (nomatch hok), fun hnot => absurd h hnot⟩
  · rw [if_neg h]
    exact ⟨fun _ => h, fun _ => rfl⟩

/-- A file is refused when the directory is taken to be in the fabric. -/
theorem checkOutside_iff {p : Path} {n : Name} (hnames : ∀ a ∈ p, ValidName a)
    (hn : ValidName n) :
    checkOutside st (p ++ [n]) fs = .ok () ↔ ¬ fabricPlace st fs <+: dirPlace fs p ++ [n] := by
  have hparent : resolvedParent fs (p ++ [n]) = dirPlace fs p := by
    show dirPlace fs (normalize (p ++ [n]).dropLast) = dirPlace fs p
    rw [List.dropLast_concat, normalize_of_names hnames]
  have hnormal : normalize (dirPlace fs p ++ [n]) = dirPlace fs p ++ [n] := by
    apply normalize_of_names
    intro a ha
    rcases List.mem_append.mp ha with ha | ha
    · exact dirPlace_names hnames a ha
    · rwa [List.mem_singleton.mp ha]
  unfold checkOutside
  simp only [hparent, fileName_concat hn, Option.toList_some, hnormal]
  exact refused_iff

/-- What is left of a path without `.` and `..` are proper names. -/
theorem normalize_names {p : Path} (h : ∀ n ∈ p, n = dotdot ∨ ValidName n) :
    ∀ n ∈ normalize p, ValidName n := by
  have hfold : ∀ (q acc : Path), (∀ n ∈ q, n = dotdot ∨ ValidName n) → (∀ n ∈ acc, ValidName n) →
      ∀ n ∈ q.foldl (fun out c =>
        if c = dot then out else if c = dotdot then out.dropLast else out ++ [c]) acc,
          ValidName n := by
    intro q
    induction q with
    | nil => exact fun acc _ hacc => hacc
    | cons c q ih =>
        intro acc hq hacc
        rw [List.foldl_cons]
        apply ih _ fun n hn => hq n (List.mem_cons_of_mem _ hn)
        rcases hq c List.mem_cons_self with rfl | hc
        · exact fun n hn => hacc n (List.mem_of_mem_dropLast hn)
        · rw [if_neg hc.2.1, if_neg hc.2.2.1]
          intro n hn
          rcases List.mem_append.mp hn with hn | hn
          · exact hacc n hn
          · rwa [List.mem_singleton.mp hn]
  exact hfold p [] h (by simp)

/-- The components of a path as the system takes them. -/
def OutPath.Formed (p : OutPath) : Prop := ∀ n ∈ p.comps, n = dotdot ∨ ValidName n

/-- No part of the path is there: it is empty without `..`, or its first name
is missing in the current directory. -/
def Afloat (cwd : Path) (p : OutPath) (fs : Fs) : Prop :=
  p.absolute = false ∧ ∀ n rest, p.clean.comps = n :: rest →
    ¬ (canonicalize fs (cwd ++ [n])).isOk = true

/-- The path with `..` taken away, from the root. -/
def OutPath.lexical (cwd : Path) (p : OutPath) : Path := p.clean.full cwd

/-- The lexical form of a path has plain names. -/
theorem OutPath.lexical_names {cwd : Path} {p : OutPath} (hcwd : fs.get cwd = some .dir)
    (hform : p.Formed) : ∀ n ∈ p.lexical cwd, ValidName n := by
  intro n hn
  unfold OutPath.lexical OutPath.full at hn
  split at hn
  · exact normalize_names hform n hn
  · rcases List.mem_append.mp hn with hn | hn
    · exact fs.valid_of_get hcwd hn
    · exact normalize_names hform n hn

/-- The walk up a relative path runs out when no part of it exists. -/
theorem deepest_nil_iff {cwd : Path} {p : OutPath} (hform : p.Formed) (habs : p.absolute = false) :
    (OutPath.deepest cwd fs false (normalize p.comps).reverse []).1 = [] ↔ Afloat cwd p fs := by
  obtain ⟨hfound, hmissing⟩ := @deepest_relative cwd (normalize p.comps).reverse [] fs
  constructor
  · intro hnil
    refine ⟨habs, ?_⟩
    intro n rest hcomps
    have hnone := (hmissing hnil).1 [n] (by simp) (by
      rw [show normalize p.comps = n :: rest from hcomps]
      exact ⟨rest.reverse, by simp⟩)
    simpa using hnone
  · rintro ⟨-, hfirst⟩
    by_contra hne
    have hdeep := hfound hne
    obtain ⟨a, r, b, hup, hsplit, hb, -⟩ :=
      deepest_split fs ((normalize p.comps).reverse ++ cwd.reverse) []
    rw [hsplit] at hdeep
    cases hcomps : (OutPath.deepest cwd fs false (normalize p.comps).reverse []).1 with
    | nil => exact hne hcomps
    | cons n rest =>
        rw [hcomps] at hdeep
        obtain ⟨rfl, -⟩ := Prod.mk.inj hdeep
        have hwhole : normalize p.comps = n :: (rest ++ r) := by simpa using hup
        apply hfirst n (rest ++ r) hwhole
        have hrest : ∀ a ∈ rest, ValidName a := fun a ha =>
          normalize_names hform a (by rw [hwhole]; simp [ha])
        apply isOk_of_append hrest
        rw [List.append_assoc]
        exact isOk_of_canonicalize hb

/-- **The check of a file in a directory** follows the text of the directory
from the root, unless no part of it is there. -/
theorem checkOutsideFrom_join {cwd : Path} {p : OutPath} {n : Name}
    (hcwd : fs.get cwd = some .dir) (hform : p.Formed) (hn : ValidName n) :
    checkOutsideFrom st cwd (p.join n) fs = .ok () ↔
      Afloat cwd p fs ∨ checkOutside st (p.lexical cwd ++ [n]) fs = .ok () := by
  have hnames := normalize_names hform
  have hagain : normalize (normalize p.comps) = normalize p.comps := normalize_of_names hnames
  obtain ⟨absolute, comps⟩ := p
  cases absolute with
  | true =>
      have hsame : checkOutside st (comps ++ [n]) fs =
          checkOutside st (normalize comps ++ [n]) fs := by
        have hparent : resolvedParent fs (comps ++ [n]) =
            resolvedParent fs (normalize comps ++ [n]) := by
          unfold resolvedParent
          rw [List.dropLast_concat, List.dropLast_concat, hagain]
        unfold checkOutside
        rw [hparent, fileName_concat hn, fileName_concat hn]
      have hfrom : checkOutsideFrom st cwd ⟨true, comps ++ [n]⟩ fs =
          checkOutside st (normalize comps ++ [n]) fs :=
        checkOutsideFrom_absolute.trans hsame
      have hdown : ¬ Afloat cwd ⟨true, comps⟩ fs := fun h => by cases h.1
      exact (Eq.congr_left hfrom).trans (or_iff_right hdown).symm
  | false =>
      have hlexical : ∀ a ∈ cwd ++ normalize comps, ValidName a :=
        OutPath.lexical_names (p := ⟨false, comps⟩) hcwd hform
      have hafloat := @deepest_nil_iff fs cwd ⟨false, comps⟩ hform rfl
      by_cases hnil : (OutPath.deepest cwd fs false (normalize comps).reverse []).1 = []
      · -- the path stays relative, and is in nothing
        refine ⟨fun _ => Or.inl (hafloat.mp hnil), fun _ => ?_⟩
        have hempty : OutPath.canonicalize cwd fs ⟨false, []⟩ = .error .notFound :=
          if_pos ⟨rfl, rfl⟩
        unfold checkOutsideFrom OutPath.candidate OutPath.resolvedParent OutPath.join
        simp only [List.dropLast_concat, hnil, hempty]
        rw [if_neg (by simp)]
      · have hdeep := (@deepest_relative cwd (normalize comps).reverse [] fs).1 hnil
        have hplace : dirPlace fs (cwd ++ normalize comps) = match canonicalize fs
            (cwd ++ (OutPath.deepest cwd fs false (normalize comps).reverse []).1) with
            | .ok base => base ++ (OutPath.deepest cwd fs false (normalize comps).reverse []).2
            | .error _ => cwd ++ normalize comps := by
          unfold dirPlace
          rw [List.reverse_append, hdeep]
        obtain ⟨a, r, b, -, hsplit, hb, -⟩ :=
          deepest_split fs ((normalize comps).reverse ++ cwd.reverse) []
        rw [hsplit] at hdeep
        obtain ⟨rfl, -⟩ := Prod.mk.inj hdeep
        rw [hb] at hplace
        have hcan : OutPath.canonicalize cwd fs
            ⟨false, (OutPath.deepest cwd fs false (normalize comps).reverse []).1⟩ = .ok b := by
          unfold OutPath.canonicalize
          rw [if_neg (fun hboth => hnil hboth.2)]
          exact hb
        have hnormal : normalize (dirPlace fs (cwd ++ normalize comps) ++ [n]) =
            dirPlace fs (cwd ++ normalize comps) ++ [n] := by
          apply normalize_of_names
          intro a ha
          rcases List.mem_append.mp ha with ha | ha
          · exact dirPlace_names hlexical a ha
          · rwa [List.mem_singleton.mp ha]
        have hcandidate : (OutPath.join ⟨false, comps⟩ n).candidate cwd fs =
            ⟨true, dirPlace fs (cwd ++ normalize comps) ++ [n]⟩ := by
          unfold OutPath.candidate OutPath.resolvedParent OutPath.join
          simp only [List.dropLast_concat, hcan, fileName_concat hn, Option.toList_some, ← hplace,
            hnormal]
        rw [or_iff_right (fun h => hnil (hafloat.mpr h))]
        refine Iff.trans ?_ (checkOutside_iff hlexical hn).symm
        unfold checkOutsideFrom
        simp only [hcandidate, true_and]
        exact refused_iff

/-! ## What `next` has done when it calls `create` -/

/-- The name given to an anchor file is a plain one. -/
theorem validName_anchorName (millis n : Nat) : ValidName (anchorName millis n) := by
  have hmem : ∀ b ∈ anchorName millis n,
      b ∈ str "anchor-" ∨ (48 ≤ b ∧ b ≤ 57) ∨ b ∈ str "-" ∨ b ∈ str ".json" := by
    intro b hb
    unfold anchorName at hb
    split at hb <;> simp only [List.mem_append] at hb
    · rcases hb with (hb | hb) | hb
      · exact Or.inl hb
      · exact Or.inr (Or.inl (decimal_digit hb))
      · exact Or.inr (Or.inr (Or.inr hb))
    · rcases hb with (((hb | hb) | hb) | hb) | hb
      · exact Or.inl hb
      · exact Or.inr (Or.inl (decimal_digit hb))
      · exact Or.inr (Or.inr (Or.inl hb))
      · exact Or.inr (Or.inl (decimal_digit hb))
      · exact Or.inr (Or.inr (Or.inr hb))
  have hclean : ∀ b, b = slash ∨ b = 0 → b ∉ anchorName millis n := by
    intro b hb h
    rcases hmem b h with h | h | h | h <;> rcases hb with rfl | rfl <;> exact absurd h (by decide)
  have hstart : ∃ rest, anchorName millis n = 97 :: 110 :: rest := by
    unfold anchorName
    split <;> exact ⟨_, rfl⟩
  obtain ⟨rest, hrest⟩ := hstart
  refine ⟨by simp [hrest], by simp [hrest], by simp [hrest], ?_, ?_⟩
  · exact hclean slash (Or.inl rfl)
  · exact hclean 0 (Or.inr rfl)

/-- The directory was made, and a name in it is free. -/
theorem allot_ok {cwd : Path} {dir path : OutPath} {m m' : Machine}
    (h : allot cwd dir m = .ok path m') :
    MadeSome m.toWorld m'.toWorld ∧ m'.fs = m.fs.withDirs (dir.full cwd) ∧
      ∃ n, ValidName n ∧ path = dir.join n ∧ m'.fs.exists (path.full cwd) = false := by
  unfold allot at h
  obtain ⟨_, m₁, hmake, h⟩ := bind_eq_ok.mp h
  obtain ⟨w, hmade, rfl⟩ := io_eq_ok.mp hmake
  obtain ⟨here, m₂, hhere, h⟩ := bind_eq_ok.mp h
  obtain ⟨rfl, rfl⟩ := EStateM.Result.ok.inj hhere
  simp only at h
  generalize hfind : List.find? _ _ = free at h
  cases free with
  | none => cases h
  | some n =>
      cases h
      refine ⟨(createDirAll_made.ok hmade).1, withDirs_of_made hmade, _,
        validName_anchorName _ _, rfl, ?_⟩
      have hfree := List.find?_some hfind
      simpa using hfree

theorem OutPath.join_inj {p : OutPath} {n n' : Name} (h : p.join n = p.join n') : n = n' := by
  have hcomps := congrArg OutPath.comps h
  simpa [OutPath.join] using hcomps

variable (st)

/-- `next` is refused by the check in `create`. -/
def Refused (cwd : Path) (dir : OutPath) (m : Machine) : Prop :=
  ∃ path m' e, allot cwd dir m = .ok path m' ∧ checkOutsideFrom st cwd path m'.fs = .error e

variable {st}

/-- A refused directory has no anchor written to it. -/
theorem Refused.nextFrom_fails {cwd : Path} {dir : OutPath} {m : Machine}
    (h : Refused st cwd dir m) : ∃ e m', nextFrom A st cwd dir m = .error e m' := by
  obtain ⟨path, m', e, hallot, hcheck⟩ := h
  refine ⟨e, m', ?_⟩
  unfold nextFrom createFrom signing
  simp [bind_apply, hallot, look, hcheck]

instance (cwd : Path) (dir : OutPath) (m : Machine) : Decidable (Refused st cwd dir m) :=
  match hallot : allot cwd dir m with
  | .error _ _ => .isFalse fun ⟨_, _, _, h, _⟩ => nomatch hallot.symm.trans h
  | .ok path m' => match hcheck : checkOutsideFrom st cwd path m'.fs with
    | .error e => .isTrue ⟨path, m', e, hallot, hcheck⟩
    | .ok _ => .isFalse fun ⟨_, _, _, h, hc⟩ => by
        cases hallot.symm.trans h
        cases hcheck.symm.trans hc

/-- A directory is not refused when every path allotted in it passes the check.
-/
theorem not_refused_iff {cwd : Path} {dir : OutPath} {m : Machine} :
    ¬ Refused st cwd dir m ↔ ∀ path m', allot cwd dir m = .ok path m' →
      checkOutsideFrom st cwd path m'.fs = .ok () := by
  constructor
  · intro h path m' hallot
    cases hcheck : checkOutsideFrom st cwd path m'.fs with
    | ok u => rfl
    | error e => exact absurd ⟨path, m', e, hallot, hcheck⟩ h
  · rintro h ⟨path, m', e, hallot, hcheck⟩
    rw [h path m' hallot] at hcheck
    cases hcheck

end Anchor

namespace Schedule

open Anchor

def MIN_INTERVAL_SECS : Nat := 60

/-- What the environment tells a process: HOME, if it is set, and its own binary. -/
structure Env where
  home : Option OutPath
  currentExe : Except Errno OutPath

/-- Everything an install needs. -/
structure ScheduleSpec where
  label : Bytes
  exe : Path
  worktree : OutPath
  anchorDir : OutPath
  every : Nat
  log : OutPath
  plistPath : OutPath
  deriving DecidableEq

variable (A : AnchorCrates) (st : Store) (env : Env)

def homeDir : Except Error OutPath :=
  match env.home with
  | some p => .ok p
  | none => .error (.corrupt (str "HOME is not set — cannot locate LaunchAgents"))

def launchAgentsDir : Except Error OutPath :=
  (homeDir env).map fun home => home.push (str "Library/LaunchAgents")

/-- Where the anchors of a fabric go unless the operator says otherwise. -/
def defaultAnchorDir (macos : Bool) (fabricId : Bytes) : Except Error OutPath :=
  (homeDir env).map fun home =>
    let base := if macos then home.push (str "Library/Application Support/respawn/anchors")
      else home.push (str ".respawn-anchors")
    base.push (fabricId.take 12)

/-- The check of the directory: the directory that contains it is looked up,
and a missing one is let through. -/
def checkAnchorDir (cwd : Path) (dir : OutPath) (fs : Fs) : Except Error Unit :=
  let parent := if dir.comps = [] then Anchor.canonicalize fs cwd
    else OutPath.canonicalize cwd fs ⟨dir.absolute, dir.comps.dropLast⟩
  match parent with
  | .error _ => .ok ()
  | .ok canon =>
      if fabricPlace st fs <+: canon ++ (fileName dir.comps).toList then
        .error (.corrupt (str "anchor dir must live outside .respawn/"))
      else .ok ()

/-- The key must load; the reason why it does not is replaced by advice. -/
def loadable : Sys Bytes := fun m =>
  match pubkey A st m with
  | .ok key m' => .ok key m'
  | .error _ m' => .error (.corrupt (str "no anchor key — run `respawn anchor keygen` first")) m'

/-- The binary of the process, which must be there. -/
def locate (cwd : Path) (fs : Fs) : Except Error Path :=
  match env.currentExe with
  | .error e => .error (.io e)
  | .ok exe => match OutPath.canonicalize cwd fs exe with
    | .error e => .error (.io e)
    | .ok p =>
        if fs.exists p then .ok p
        else .error (.corrupt (str "respawn binary not found at " ++ joinSlash p))

/-- Resolve and validate a schedule install. -/
def plan (cwd : Path) (worktree : OutPath) (dir : Option OutPath) (every : Nat) :
    Sys ScheduleSpec := do
  if every < MIN_INTERVAL_SECS then
    throw (.corrupt (str "--every must be >= " ++ decimal MIN_INTERVAL_SECS ++ str "s"))
  else do
    let _ ← loadable A st
    let id ← fabricId st
    let m ← get
    -- the default is located even where it is not asked for
    let default ← look fun _ => defaultAnchorDir env m.keychain.macos id
    let anchorDir := dir.getD default
    look (checkAnchorDir st cwd anchorDir)
    let exe ← look (locate env cwd)
    let label := str "com.respawn.anchor." ++ id.take 12
    let agents ← look fun _ => launchAgentsDir env
    let home ← look fun _ => homeDir env
    pure
      { label := label
        exe := exe
        worktree := worktree
        anchorDir := anchorDir
        every := every
        log := (home.push (str "Library/Logs/respawn")).push
          (str "anchor-" ++ label ++ str ".log")
        plistPath := agents.push (label ++ str ".plist") }

/-! ## Two checks of one directory -/

/-- What `plan` accepts, `next` is not refused for. -/
def SameRule (cwd : Path) (worktree : OutPath) (dir : Option OutPath) (every : Nat)
    (m : Machine) : Prop :=
  ∀ spec m₁, plan A st env cwd worktree dir every m = .ok spec m₁ →
    ¬ Refused st cwd spec.anchorDir m₁

instance (cwd : Path) (worktree : OutPath) (dir : Option OutPath) (every : Nat) (m : Machine) :
    Decidable (SameRule A st env cwd worktree dir every m) :=
  match hplan : plan A st env cwd worktree dir every m with
  | .error _ _ => .isTrue fun _ _ h => nomatch hplan.symm.trans h
  | .ok spec m₁ => decidable_of_iff (¬ Refused st cwd spec.anchorDir m₁) <| by
      refine ⟨fun h spec' m' hplan' => ?_, fun h => h spec m₁ hplan⟩
      cases hplan.symm.trans hplan'
      exact h

variable {A env}

/-- `plan` looks where the anchors will be: the directory has no `..`, the
directory that contains it is there, and it is no link itself. -/
structure Judged (cwd : Path) (dir : OutPath) (fs : Fs) : Prop where
  names : ∀ n ∈ dir.comps, ValidName n
  above : ∃ base n, dir.comps.getLast? = some n ∧
    OutPath.canonicalize cwd fs ⟨dir.absolute, dir.comps.dropLast⟩ = .ok base ∧
      ∀ t, fs.get (base ++ [n]) ≠ some (.symlink t)

/-- The check in `create` accepts a file in the directory by its text, or for
want of a place even in the tree with the directory; if the text ends in a link
that leads nowhere, it accepts the file in that tree. -/
def Foreseen (cwd : Path) (dir : OutPath) (n : Name) (fs : Fs) : Prop :=
  Afloat cwd dir (fs.withDirs (dir.full cwd)) ∨
    ((Unlinked fs (dir.lexical cwd) → checkOutside st (dir.lexical cwd ++ [n]) fs = .ok ()) ∧
      (¬ Unlinked fs (dir.lexical cwd) →
        checkOutside st (dir.lexical cwd ++ [n]) (fs.withDirs (dir.full cwd)) = .ok ()))

variable {st}
variable {fs fs' : Fs}

/-- The fabric stays in its place when directories are made. -/
theorem fabricPlace_made {F : Path} (hnew : Fs.NewDirs fs fs')
    (hfabric : canonicalize fs st.fabricDir = .ok F) :
    fabricPlace st fs = F ∧ fabricPlace st fs' = F := by
  unfold fabricPlace
  rw [hfabric, canonicalize_sub hnew hfabric]
  exact ⟨rfl, rfl⟩

/-- The text of a directory is judged alike before and after it was made. -/
theorem checkOutside_made {F p : Path} {n : Name} (hnames : ∀ a ∈ p, ValidName a)
    (hn : ValidName n) (hnew : Fs.NewDirs fs fs')
    (hfabric : canonicalize fs st.fabricDir = .ok F) (hlink : Unlinked fs p) :
    checkOutside st (p ++ [n]) fs' = .ok () ↔ checkOutside st (p ++ [n]) fs = .ok () := by
  obtain ⟨hbefore, hafter⟩ := fabricPlace_made hnew hfabric
  rw [checkOutside_iff hnames hn, checkOutside_iff hnames hn, dirPlace_made hnames hnew hlink,
    hbefore, hafter]

/-- A planned schedule has had its anchor directory checked. -/
theorem plan_ok {cwd : Path} {worktree : OutPath} {dir : Option OutPath} {every : Nat}
    {m m₁ : Machine} {spec : ScheduleSpec}
    (h : plan A st env cwd worktree dir every m = .ok spec m₁) :
    checkAnchorDir st cwd spec.anchorDir m₁.fs = .ok () ∧
      ∀ d, dir = some d → spec.anchorDir = d := by
  unfold plan at h
  split at h
  · cases h
  · obtain ⟨key, m₂, hkey, h₂⟩ := bind_eq_ok.mp h
    obtain ⟨id, m₃, hid, h₃⟩ := bind_eq_ok.mp h₂
    rw [bind_apply, get_apply] at h₃
    obtain ⟨default, m₅, hdefault, h₅⟩ := bind_eq_ok.mp h₃
    obtain ⟨-, rfl⟩ := look_eq_ok.mp hdefault
    obtain ⟨_, m₆, hcheck, h₆⟩ := bind_eq_ok.mp h₅
    obtain ⟨hpass, rfl⟩ := look_eq_ok.mp hcheck
    obtain ⟨exe, m₇, hexe, h₇⟩ := bind_eq_ok.mp h₆
    obtain ⟨-, rfl⟩ := look_eq_ok.mp hexe
    obtain ⟨agents, m₈, hagents, h₈⟩ := bind_eq_ok.mp h₇
    obtain ⟨-, rfl⟩ := look_eq_ok.mp hagents
    obtain ⟨home, m₉, hhome, h₉⟩ := bind_eq_ok.mp h₈
    obtain ⟨-, rfl⟩ := look_eq_ok.mp hhome
    cases h₉
    refine ⟨hpass, ?_⟩
    rintro d rfl
    rfl

/-- **Where `plan` looks the rules agree.** -/
theorem not_refused_of_judged {cwd F : Path} {dir : OutPath} {m : Machine}
    (hcwd : m.fs.get cwd = some .dir) (hleads : m.fs.resolve true st.fabricDir = .ok F)
    (hdir : m.fs.get F = some .dir) (hjudged : Judged cwd dir m.fs)
    (hpass : checkAnchorDir st cwd dir m.fs = .ok ()) : ¬ Refused st cwd dir m := by
  obtain ⟨absolute, comps⟩ := dir
  obtain ⟨hnames, base, x, hlast, hbase, hplain⟩ := hjudged
  obtain ⟨up, rfl⟩ := List.getLast?_eq_some_iff.mp hlast
  simp only [List.dropLast_concat] at hbase
  have hx : ValidName x := hnames x (by simp)
  have hfabric : canonicalize m.fs st.fabricDir = .ok F :=
    canonicalize_eq_ok.mpr ⟨hleads, by rw [hdir]; simp⟩
  rw [not_refused_iff]
  intro path m' hallot
  obtain ⟨hmade, -, n, hn, rfl, hfree⟩ := allot_ok hallot
  have hnew := hmade.newDirs
  obtain ⟨hbefore, hafter⟩ := fabricPlace_made hnew hfabric
  have hform : OutPath.Formed ⟨absolute, up ++ [x]⟩ := fun a ha => Or.inr (hnames a ha)
  have hcwd' := hnew.sub hcwd
  -- the path from the root, above the directory
  obtain ⟨above, habove, hfull⟩ : ∃ above, canonicalize m.fs above = .ok base ∧
      OutPath.full cwd ⟨absolute, up ++ [x]⟩ = above ++ [x] := by
    refine ⟨OutPath.full cwd ⟨absolute, up⟩, ?_, ?_⟩
    · unfold OutPath.canonicalize at hbase
      split at hbase
      · cases hbase
      · exact hbase
    · cases absolute <;> simp [OutPath.full]
  have hlexical : OutPath.lexical cwd ⟨absolute, up ++ [x]⟩ = above ++ [x] := by
    unfold OutPath.lexical OutPath.clean
    rw [normalize_of_names hnames]
    exact hfull
  have hvalid : ∀ a ∈ above ++ [x], ValidName a := by
    rw [← hlexical]
    exact OutPath.lexical_names hcwd hform
  have hplace : dirPlace m'.fs (above ++ [x]) = base ++ [x] := by
    have hkept := canonicalize_sub hnew habove
    by_cases hok : (canonicalize m'.fs (above ++ [x])).isOk = true
    · obtain ⟨q, hq⟩ := isOk_canonicalize.mp hok
      obtain ⟨c, hc, hdot, -⟩ := canonicalize_up hx hq
      obtain rfl := Except.ok.inj (hkept.symm.trans hc)
      have hfollow := Fs.resolve_follow (fun t ht => hplain t (hnew.link ht))
        (Fs.resolve_in hx hdot)
      have hq' := Except.ok.inj ((canonicalize_eq_ok.mp hq).1.symm.trans hfollow)
      have hwhole := dirPlace_eq (r := []) (by simp) hq (by simp)
      rwa [List.append_nil, List.append_nil, hq'] at hwhole
    · exact dirPlace_eq (by simpa using hx) hkept (fun n' rest heq => by
        cases heq
        exact hok)
  rw [checkOutsideFrom_join hcwd' hform hn, hlexical]
  right
  rw [checkOutside_iff hvalid hn, hafter, hplace]
  have houtside : ¬ F <+: base ++ [x] := by
    have hne : ¬ up ++ [x] = [] := by simp
    have hname : fileName (up ++ [x]) = some x := fileName_concat hx
    unfold checkAnchorDir at hpass
    simp only [if_neg hne, List.dropLast_concat, hbase, hname, Option.toList_some,
      hbefore] at hpass
    exact refused_iff.mp hpass
  intro hinside
  rcases List.prefix_concat_iff.mp hinside with hwhole | hpart
  · -- the fabric itself would stand under the free name
    have hthere : m'.fs.get (base ++ [x] ++ [n]) = some .dir := hwhole ▸ hnew.sub hdir
    have hmid : m'.fs.get (base ++ [x]) = some .dir := m'.fs.get_of_append hthere (by simp)
    have hcan := canonicalize_in hn (canonicalize_in hx (canonicalize_sub hnew habove) hmid) hthere
    have hres := (canonicalize_eq_ok.mp hcan).1
    have hpath : OutPath.full cwd (OutPath.join ⟨absolute, up ++ [x]⟩ n) = above ++ [x] ++ [n] := by
      rw [← hfull]
      cases absolute <;> simp [OutPath.full, OutPath.join]
    have hexists : m'.fs.exists (above ++ [x] ++ [n]) = true := by
      unfold Fs.exists Fs.metadata
      rw [hres]
      simp only [hthere]
      rfl
    rw [hpath, hexists] at hfree
    cases hfree
  · exact houtside hpart

/-- **When the agent is let to run.**  What `plan` accepts, `next` is not
refused for exactly when `plan` looked where the anchors will be or the check
in `create` accepts them in advance. -/
theorem sameRule_iff (cwd : Path) (worktree : OutPath) (dir : Option OutPath) (every : Nat)
    {F : Path} {m m₁ : Machine} {spec : ScheduleSpec}
    (hplan : plan A st env cwd worktree dir every m = .ok spec m₁)
    (hcwd : m₁.fs.get cwd = some .dir) (hleads : m₁.fs.resolve true st.fabricDir = .ok F)
    (hdir : m₁.fs.get F = some .dir) (hform : spec.anchorDir.Formed) :
    SameRule A st env cwd worktree dir every m ↔
      Judged cwd spec.anchorDir m₁.fs ∨
        ∀ n m₂, allot cwd spec.anchorDir m₁ = .ok (spec.anchorDir.join n) m₂ →
          Foreseen st cwd spec.anchorDir n m₁.fs := by
  have hsame : SameRule A st env cwd worktree dir every m ↔
      ¬ Refused st cwd spec.anchorDir m₁ := by
    constructor
    · exact fun h => h spec m₁ hplan
    · intro h spec' m' hplan'
      rw [hplan] at hplan'
      cases hplan'
      exact h
  have hfabric : canonicalize m₁.fs st.fabricDir = .ok F :=
    canonicalize_eq_ok.mpr ⟨hleads, by rw [hdir]; simp⟩
  have hnames := OutPath.lexical_names hcwd hform
  rw [hsame]
  constructor
  · intro h
    right
    intro n m₂ hallot
    have hcheck := not_refused_iff.mp h _ _ hallot
    obtain ⟨hmade, htree, n', hn, hpath, -⟩ := allot_ok hallot
    obtain rfl := OutPath.join_inj hpath
    unfold Foreseen
    rw [← htree]
    rcases (checkOutsideFrom_join (hmade.newDirs.sub hcwd) hform hn).mp hcheck with hfloat | hout
    · exact Or.inl hfloat
    · right
      refine ⟨fun hlink => ?_, fun _ => hout⟩
      exact (checkOutside_made hnames hn hmade.newDirs hfabric hlink).mp hout
  · rintro (hjudged | hforeseen)
    · exact not_refused_of_judged hcwd hleads hdir hjudged (plan_ok hplan).1
    · rw [not_refused_iff]
      intro path m₂ hallot
      obtain ⟨hmade, htree, n, hn, rfl, -⟩ := allot_ok hallot
      rw [checkOutsideFrom_join (hmade.newDirs.sub hcwd) hform hn]
      have hfile := hforeseen n m₂ hallot
      unfold Foreseen at hfile
      rw [← htree] at hfile
      rcases hfile with hfloat | ⟨hbefore, hafter⟩
      · exact Or.inl hfloat
      · right
        by_cases hlink : Unlinked m₁.fs (spec.anchorDir.lexical cwd)
        · exact (checkOutside_made hnames hn hmade.newDirs hfabric hlink).mpr (hbefore hlink)
        · exact hafter hlink

/-! ## A directory that is still missing -/

/-- A fabric with a signing key and an identity, and the binary beside it. -/
def agentFabric : Fs :=
  Fs.build (Store.fabricNodes ⟨[str "w"]⟩ [] ++
    [(fabricIdPath ⟨[str "w"]⟩, Store.plainFile (str "fabric")),
     (Keychain.secretPath ⟨[str "w"]⟩, Store.plainFile (hexEncode anchorSeed)),
     ([str "bin"], Store.plainFile [])])

def agentEnv : Env := ⟨some ⟨true, [str "home"]⟩, .ok ⟨true, [str "bin"]⟩⟩

/-- A directory in the fabric, two levels of which are still missing. -/
def nestedDir : OutPath := ⟨true, [str "w", FABRIC_DIR, str "anchors", str "daily"]⟩

/-- `plan` finds nothing to check, and `next` is refused at every interval. -/
theorem missing_parent_let_through :
    ¬ SameRule anchorCrates ⟨[str "w"]⟩ agentEnv [str "w"] ⟨true, [str "w"]⟩ (some nestedDir) 300
      (Machine.start agentFabric) := by decide +kernel

/-- The directory beside the fabric is under one rule. -/
theorem sameRule_beside :
    SameRule anchorCrates ⟨[str "w"]⟩ agentEnv [str "w"] ⟨true, [str "w"]⟩
      (some ⟨true, [str "w", str "anchors"]⟩) 300 (Machine.start agentFabric) := by
  have hrun : succeeded (plan anchorCrates ⟨[str "w"]⟩ agentEnv [str "w"] ⟨true, [str "w"]⟩
      (some ⟨true, [str "w", str "anchors"]⟩) 300 (Machine.start agentFabric)) = true := by
    decide +kernel
  obtain ⟨spec, hplan⟩ := exists_of_succeeded hrun
  have hd := (plan_ok hplan).2 _ rfl
  apply (sameRule_iff [str "w"] ⟨true, [str "w"]⟩ (some ⟨true, [str "w", str "anchors"]⟩) 300
    (F := [str "w", FABRIC_DIR]) hplan (by decide +kernel) (by decide +kernel)
    (by decide +kernel) ?_).mpr
  · left
    rw [hd]
    refine ⟨by decide, [str "w"], str "anchors", rfl, by decide +kernel, ?_⟩
    intro t ht
    have hnone : (finalState (plan anchorCrates ⟨[str "w"]⟩ agentEnv [str "w"] ⟨true, [str "w"]⟩
        (some ⟨true, [str "w", str "anchors"]⟩) 300 (Machine.start agentFabric))).fs.get
          ([str "w"] ++ [str "anchors"]) = none := by decide +kernel
    rw [hnone] at ht
    cases ht
  · rw [hd]
    unfold OutPath.Formed
    decide

end Schedule

end Respawn
