import Respawn.Contents

/-!
# Reading back what was stored

`put_object` trusts a file that is already at the object's path, whatever is in
it, and stores bytes of any length; `get_object` bounds the length and checks
the hash.  So what was accepted is given back on a condition on the bytes and
on the store before.

Nothing is assumed about the store: files may be missing, cut short or corrupt,
and links may stand anywhere.  `Settled` says where a path leads for which
directories were made, and `Steady` excludes a link in the object's own place
that the path to the object's directory passes through.

* `put_get_iff` — what was put is got exactly on that condition.
-/

namespace FileTree

open ByteStr StateLogic

/-! ## Where directories are made -/

/-- The directory `p` was made if it was not there: the path now leads to `c`,
which is new unless nothing was made. -/
structure Settled (p : Path) (w w' : World) (c : Path) : Prop where
  made : MadeSome w w'
  leads : w'.fs.resolve false (p ++ [dot]) = .ok c
  fresh : w.fs.get c = none ∨ w' = w

/-- Two steps of making directories, one after the other. -/
theorem Settled.trans {p c c' : Path} {w₁ w₂ w₃ : World} (h₁ : Settled p w₁ w₂ c)
    (h₂ : Settled p w₂ w₃ c') : Settled p w₁ w₃ c' := by
  refine ⟨h₁.made.trans h₂.made, h₂.leads, ?_⟩
  rcases h₂.fresh with hnone | rfl
  · left
    cases hget : w₁.fs.get c' with
    | none => rfl
    | some x =>
        rw [h₁.made.newDirs.sub hget] at hnone
        cases hnone
  · have hc : c = c' := Except.ok.inj (h₁.leads.symm.trans h₂.leads)
    exact hc ▸ h₁.fresh

/-- Making one directory settles it. -/
theorem mkdirOrFound_settled {p : Path} {w : World} :
    After (mkdirOrFound p w) (fun _ w' => ∃ c, Settled p w w' c) (fun _ _ => True) := by
  have hmade := mkdirOrFound_made (p := p) (w := w)
  cases hrun : mkdirOrFound p w with
  | error e w' => trivial
  | ok u w' =>
      obtain ⟨hsome, c, hc⟩ := hmade.ok hrun
      refine ⟨c, hsome, hc, ?_⟩
      unfold mkdirOrFound at hrun
      cases hfirst : mkdir p w with
      | ok u w₁ =>
          rw [hfirst] at hrun
          cases hrun
          obtain ⟨r, hres, hnone, rfl⟩ := mkdir_ok hfirst
          have hget : ∀ q, (w.fs.exec (.mkdir r)).get q = _ := fun q =>
            Fs.get_put (Fs.room_of_reached (Fs.resolve_reached hres) hnone) .dir q
          have hleads := Fs.resolve_snoc_dot (fun _ _ => hsome.newDirs.sub)
            ((hget r).trans (if_pos rfl)) hres
          rw [← Except.ok.inj (hleads.symm.trans hc)]
          exact Or.inl hnone
      | error e w₁ =>
          have hw := mkdir_error hfirst
          subst hw
          simp only [hfirst] at hrun
          split at hrun
          · cases hrun
            exact Or.inr rfl
          · cases hrun

/-- A name under a directory leads to a place in it. -/
theorem Fs.resolve_in {fs : Fs} {p c : Path} {n : Name} (hn : ValidName n)
    (h : fs.resolve false (p ++ [dot]) = .ok c) : fs.resolve false (p ++ [n]) = .ok (c ++ [n]) := by
  rw [Fs.resolve_snoc hn, h]
  rfl

/-- A name that resolves does so inside the directory before it. -/
theorem Fs.of_resolve_in {fs : Fs} {p q : Path} {n : Name} (hn : ValidName n)
    (h : fs.resolve false (p ++ [n]) = .ok q) :
    ∃ c, fs.resolve false (p ++ [dot]) = .ok c ∧ q = c ++ [n] := by
  rw [Fs.resolve_snoc hn] at h
  cases hc : fs.resolve false (p ++ [dot]) with
  | error e =>
      rw [hc] at h
      cases h
  | ok c =>
      rw [hc] at h
      cases h
      exact ⟨c, rfl, rfl⟩

/-- A free place becomes a directory. -/
theorem mkdirOrFound_of_free {p q : Path} {w w' : World} {u : Unit}
    (hres : w.fs.resolve false p = .ok q) (hnone : w.fs.get q = none)
    (h : mkdirOrFound p w = .ok u w') : w'.fs.get q = some .dir := by
  have hget : ∀ r, (w.fs.exec (.mkdir q)).get r = _ := fun r =>
    Fs.get_put (Fs.room_of_reached (Fs.resolve_reached hres) hnone) .dir r
  simp only [mkdirOrFound, mkdir, hres, hnone] at h
  cases h
  exact (hget q).trans (if_pos rfl)

/-- **Directories are made in new places.**  The first one is made in a place
that was free, and the later ones in it. -/
theorem createDirAllRev_settled {up : Path} {w : World} (hnames : ∀ n ∈ up, ValidName n) :
    After (createDirAllRev up w) (fun _ w' => ∃ c, Settled up.reverse w w' c)
      (fun _ _ => True) := by
  induction up generalizing w with
  | nil => exact ⟨[], MadeSome.refl _, rfl, Or.inr rfl⟩
  | cons n up ih =>
      have hn : ValidName n := hnames n List.mem_cons_self
      have honce := mkdirOrFound_settled (p := (n :: up).reverse) (w := w)
      have hlast : (n :: up).reverse = up.reverse ++ [n] := List.reverse_cons
      unfold createDirAllRev
      cases hfirst : mkdir (n :: up).reverse w with
      | ok u w₁ => simpa only [hfirst] using honce
      | error e w₁ =>
          have hw₁ := mkdir_error hfirst
          subst hw₁
          cases e with
          | notFound =>
              simp only
              apply After.bind (ih fun a ha => hnames a (List.mem_cons_of_mem _ ha))
              rintro _ w₂ ⟨c, hc⟩
              have hplace := Fs.resolve_in hn hc.leads
              rcases hc.fresh with hnone | rfl
              · cases hrun : mkdirOrFound (n :: up).reverse w₂ with
                | error e w₃ => trivial
                | ok u w₃ =>
                    obtain ⟨c', hc'⟩ := mkdirOrFound_settled.ok hrun
                    have hfree : w₁.fs.get (c ++ [n]) = none :=
                      w₁.fs.get_append_eq_none (by rw [hnone]; simp) (by simp)
                    have hdir : w₃.fs.get (c ++ [n]) = some .dir := by
                      rcases hc.made.newDirs (c ++ [n]) with hsame | ⟨-, hthere⟩
                      · exact mkdirOrFound_of_free (hlast ▸ hplace) (hsame.trans hfree) hrun
                      · exact hc'.made.newDirs.sub hthere
                    have hleads := Fs.resolve_snoc_dot (fun _ _ => hc'.made.newDirs.sub) hdir
                      (hlast ▸ hplace)
                    refine ⟨c', hc.made.trans hc'.made, hc'.leads, Or.inl ?_⟩
                    rw [← Except.ok.inj (hleads.symm.trans hc'.leads)]
                    exact hfree
              · -- the second attempt would fail as the first one did
                exfalso
                unfold mkdir at hfirst
                rw [hlast, hplace] at hfirst
                simp only at hfirst
                split at hfirst <;> cases hfirst
          | _ => simpa only [hfirst] using honce

/-- Making a directory and its parents settles it. -/
theorem createDirAll_settled {p : Path} {w w' : World} {u : Unit} (hnames : ∀ n ∈ p, ValidName n)
    (h : createDirAll p w = .ok u w') : ∃ c, Settled p w w' c := by
  have hrev := @createDirAllRev_settled p.reverse w
    fun n hn => hnames n (List.mem_reverse.mp hn)
  rw [List.reverse_reverse] at hrev
  exact hrev.ok h

/-! ## A file in the place where a path leads -/

/-- With a file where it leads, the path still leads there. -/
def Fs.Steady (fs : Fs) (path : Path) : Prop :=
  ∀ q ∈ (fs.resolve false path).toOption,
    (fs.put q (.file ⟨[], 0, 0⟩)).resolve false path = .ok q

instance (fs : Fs) (path : Path) : Decidable (fs.Steady path) := by
  unfold Fs.Steady; infer_instance

/-- `fs'` is `fs` with a file at `q`. -/
def Fs.Filed (fs fs' : Fs) (q : Path) (data : Bytes) : Prop :=
  fs.get q ≠ some .dir ∧ (∃ d, fs'.get q = some (.file d) ∧ d.bytes = data) ∧
    ∀ r, r ≠ q → fs'.get r = fs.get r

/-- Filing only adds. -/
theorem Fs.Filed.grows {fs fs' : Fs} {q : Path} {data : Bytes} (h : fs.Filed fs' q data) :
    Fs.Grows fs fs' := by
  obtain ⟨hdir, ⟨d, hd, -⟩, hframe⟩ := h
  apply Fs.grows_of_files
  intro r
  by_cases hr : r = q
  · subst hr
    exact Or.inr ⟨hdir, d, hd⟩
  · exact Or.inl (hframe r hr)

/-- Only a link that is replaced matters to where paths lead. -/
theorem Fs.Filed.shape {fs fs' : Fs} {q : Path} {data : Bytes} (h : fs.Filed fs' q data)
    (hlink : ∀ t, fs.get q ≠ some (.symlink t)) : Fs.SameShape fs fs' := by
  obtain ⟨hdir, ⟨d, hd, -⟩, hframe⟩ := h
  intro r
  by_cases hr : r = q
  · subst hr
    refine Or.inr ⟨?_, Or.inr ⟨d, hd⟩⟩
    cases hget : fs.get r with
    | none => exact Or.inl rfl
    | some x =>
        cases x with
        | dir => exact absurd hget hdir
        | symlink t => exact absurd hget (hlink t)
        | file d' => exact Or.inr ⟨d', rfl⟩
  · exact Or.inl (hframe r hr)

/-- A file can be put where a path leads, unless a directory is there. -/
theorem Fs.room_of_resolve {fs : Fs} {follow : Bool} {path q : Path}
    (hres : fs.resolve follow path = .ok q) (hdir : fs.get q ≠ some .dir) : fs.Room q := by
  cases hget : fs.get q with
  | none => exact Fs.room_of_reached (Fs.resolve_reached hres) hget
  | some x => exact Fs.room_of_leaf hget fun hx => hdir (hx ▸ hget)

/-- Putting a file where no directory stands files it. -/
theorem Fs.filed_put {fs : Fs} {path q : Path} (d : FileData)
    (hres : fs.resolve false path = .ok q) (hdir : fs.get q ≠ some .dir) :
    fs.Filed (fs.put q (.file d)) q d.bytes := by
  have hroom := Fs.room_of_resolve hres hdir
  refine ⟨hdir, ⟨d, (Fs.get_put hroom _ q).trans (if_pos rfl), rfl⟩, ?_⟩
  intro r hr
  exact (Fs.get_put hroom _ r).trans (if_neg hr)

/-- Two trees with a file in the same place of the same tree have one shape. -/
theorem Fs.Filed.same {fs fs₁ fs₂ : Fs} {q : Path} {a b : Bytes} (h₁ : fs.Filed fs₁ q a)
    (h₂ : fs.Filed fs₂ q b) : Fs.SameShape fs₁ fs₂ := by
  obtain ⟨-, ⟨d₁, hd₁, -⟩, hframe₁⟩ := h₁
  obtain ⟨-, ⟨d₂, hd₂, -⟩, hframe₂⟩ := h₂
  intro r
  by_cases hr : r = q
  · subst hr
    exact Or.inr ⟨Or.inr ⟨d₁, hd₁⟩, Or.inr ⟨d₂, hd₂⟩⟩
  · exact Or.inl ((hframe₂ r hr).trans (hframe₁ r hr).symm)

/-- What is read was found in the place of the file. -/
theorem Fs.Filed.entry {fs fs' : Fs} {p c : Path} {n : Name} {data got : Bytes}
    (h : fs.Filed fs' (c ++ [n]) data) (hn : ValidName n)
    (hleads : fs.resolve false (p ++ [dot]) = .ok c) (hread : fs'.read (p ++ [n]) = .ok got) :
    fs'.resolve false (p ++ [n]) = .ok (c ++ [n]) := by
  unfold Fs.read Fs.metadata at hread
  cases hres : fs'.resolve true (p ++ [n]) with
  | error e =>
      rw [hres] at hread
      cases hread
  | ok q =>
      obtain ⟨q', hentry⟩ := Fs.resolve_entry hres
      obtain ⟨c', hc', rfl⟩ := Fs.of_resolve_in hn hentry
      rw [hentry, Fs.resolve_grows h.grows hleads hc']

/-- After the directory was made and the file put in its place, the path is
read unless it was not steady before. -/
theorem read_filed_iff {p c : Path} {n : Name} {w w' : World} {fs : Fs} {data : Bytes}
    (hn : ValidName n) (hsettled : Settled p w w' c) (hfiled : w'.fs.Filed fs (c ++ [n]) data) :
    (if w.fs.Steady (p ++ [n]) then fs.read (p ++ [n]) = .ok data
      else ∃ e, fs.read (p ++ [n]) = .error e) := by
  have hplace := Fs.resolve_in hn hsettled.leads
  -- the file is read if the path still leads to it
  have hread : fs.resolve false (p ++ [n]) = .ok (c ++ [n]) → fs.read (p ++ [n]) = .ok data := by
    intro hres
    obtain ⟨-, ⟨d, hd, rfl⟩, -⟩ := hfiled
    have hfollow := Fs.resolve_follow (fun t ht => by rw [hd] at ht; cases ht) hres
    unfold Fs.read Fs.metadata
    simp only [hfollow, hd]
  by_cases hlink : ∃ t, w.fs.get (c ++ [n]) = some (.symlink t)
  · -- a link is replaced: its directory was there, and nothing was made
    obtain ⟨t, ht⟩ := hlink
    have hsame : w' = w := by
      rcases hsettled.fresh with hnone | hsame
      · rw [w.fs.get_append_eq_none (by rw [hnone]; simp) (by simp)] at ht
        cases ht
      · exact hsame
    subst hsame
    by_cases hsteady : w'.fs.Steady (p ++ [n])
    · rw [if_pos hsteady]
      apply hread
      have hput := Fs.filed_put ⟨[], 0, 0⟩ hplace hfiled.1
      exact Fs.resolve_shape (hput.same hfiled) (hsteady _ (by rw [hplace]; rfl))
    · rw [if_neg hsteady]
      cases hgot : fs.read (p ++ [n]) with
      | error e => exact ⟨e, rfl⟩
      | ok got =>
          exfalso
          apply hsteady
          intro q hq
          have hq' := eq_ok_of_toOption hq
          obtain rfl := Except.ok.inj (hplace.symm.trans hq')
          have hput := Fs.filed_put ⟨[], 0, 0⟩ hplace hfiled.1
          exact Fs.resolve_shape (hfiled.same hput) (hfiled.entry hn hsettled.leads hgot)
  · have hlink' : ∀ t, w'.fs.get (c ++ [n]) ≠ some (.symlink t) := fun t ht =>
      hlink ⟨t, hsettled.made.newDirs.link ht⟩
    have hsteady : w.fs.Steady (p ++ [n]) := by
      intro q hq
      have hres := eq_ok_of_toOption hq
      obtain ⟨c', hc', rfl⟩ := Fs.of_resolve_in hn hres
      have hleads := Fs.resolve_sub (fun _ _ => hsettled.made.newDirs.sub)
        (hsettled.made.newDirs.sub (Fs.resolve_dot hc')) hc'
      obtain rfl := Except.ok.inj (hsettled.leads.symm.trans hleads)
      have hdir : w.fs.get (c ++ [n]) ≠ some .dir := fun h =>
        hfiled.1 (hsettled.made.newDirs.sub h)
      have hput := Fs.filed_put ⟨[], 0, 0⟩ hres hdir
      exact Fs.resolve_shape (hput.shape (not_exists.mp hlink)) hres
    have hshape := hfiled.shape hlink'
    rw [if_pos hsteady]
    exact hread (Fs.resolve_shape hshape hplace)

end FileTree

namespace Respawn

open ByteStr FileTree StateLogic

/-- A file that was made does not change where paths lead. -/
theorem Opened.shape {tmp : Path} {data : Bytes} {m m' : Machine} (h : Opened tmp data m m') :
    Fs.SameShape m.fs m'.fs := by
  obtain ⟨d, hd, -⟩ := h.file
  intro q
  by_cases hq : q = tmp
  · subst hq
    exact Or.inr ⟨Or.inl h.absent, Or.inr ⟨d, hd⟩⟩
  · exact Or.inl (h.frame q hq)

namespace Store

/-- A file that was replaced, wherever links lead. -/
theorem replaceFile_filed {tag : Bytes} {dir : Path} {n : Name} {data : Bytes} {m m' : Machine}
    {u : Unit} (hn : ValidName n) (hdir : ∀ x ∈ dir, ValidName x)
    (htag : ∀ k, ValidName (tmpName m.pid k tag))
    (h : replaceFile tag (dir ++ [n]) data m = .ok u m') :
    ∃ w c, Settled dir m.toWorld w c ∧ w.fs.Filed m'.fs (c ++ [n]) data := by
  unfold replaceFile at h
  rw [List.dropLast_concat] at h
  obtain ⟨_, m₁, hmake, h⟩ := bind_eq_ok.mp h
  obtain ⟨w, hmade, rfl⟩ := io_eq_ok.mp hmake
  obtain ⟨c, hc⟩ := createDirAll_settled hdir hmade
  obtain ⟨tmp, m₂, htmp, h⟩ := bind_eq_ok.mp h
  cases htmp
  obtain ⟨f, m₃, hopen, h⟩ := bind_eq_ok.mp h
  obtain ⟨w₃, hcreate, rfl⟩ := io_eq_ok.mp hopen
  obtain ⟨hres, hopened⟩ := opened_of_createNew (m := { m with toWorld := w }) hcreate
  have hf := Except.ok.inj (hres.symm.trans (Fs.resolve_in (htag _) hc.leads))
  subst hf
  obtain ⟨_, m₄, hput, h⟩ := bind_eq_ok.mp h
  cases hput
  obtain ⟨w₅, hrename, rfl⟩ := io_eq_ok.mp h
  obtain ⟨p', q', x, hp', hq', -, hnodir, rfl⟩ := rename_ok hrename
  have hstart : Appended (c ++ [tmpName m.pid m.tmpCounter tag]) [] [] { m with toWorld := w₃ }
      { m with toWorld := w₃ } := by
    obtain ⟨d, hd, hempty⟩ := hopened.file
    exact ⟨⟨d, hd, hempty⟩, fun _ _ => rfl, Machine.Ran.refl _⟩
  have hfull := hopened.append (hstart.write data)
  have hshape := hfull.shape
  have htmp := Except.ok.inj
    (hp'.symm.trans (Fs.resolve_shape hshape (Fs.resolve_in (htag _) hc.leads)))
  have hdest := Except.ok.inj
    (hq'.symm.trans (Fs.resolve_shape hshape (Fs.resolve_in hn hc.leads)))
  subst htmp hdest
  obtain ⟨hfile, hframe⟩ := hfull.rename (Fs.room_of_resolve hq' hnodir)
  refine ⟨w, c, hc, ?_, hfile, hframe⟩
  exact fun hthere => hnodir (hfull.grows.dirs _ hthere)

/-- A blob that was stored is read, unless something was there. -/
theorem putBlob_read {path : Path} {stored : Bytes} {m m' : Machine} {u : Unit} (hne : path ≠ [])
    (hnames : ∀ x ∈ path, ValidName x) (h : putBlob path stored m = .ok u m')
    (hfree : m.fs.exists path = false) :
    if m.fs.Steady path then m'.fs.read path = .ok stored
      else ∃ e, m'.fs.read path = .error e := by
  obtain ⟨dir, n, rfl⟩ : ∃ dir n, path = dir ++ [n] :=
    ⟨_, _, (List.dropLast_append_getLast hne).symm⟩
  have hn : ValidName n := hnames n (by simp)
  have hdir : ∀ x ∈ dir, ValidName x := fun x hx => hnames x (List.mem_append_left _ hx)
  unfold putBlob at h
  rw [bind_apply, look_get] at h
  simp only [hfree, Bool.false_eq_true, if_false, List.dropLast_concat] at h
  obtain ⟨_, m₁, hmake, h⟩ := bind_eq_ok.mp h
  obtain ⟨w, hmade, rfl⟩ := io_eq_ok.mp hmake
  obtain ⟨c, hc⟩ := createDirAll_settled hdir hmade
  obtain ⟨w', c', hc', hfiled⟩ := replaceFile_filed (m := { m with toWorld := w }) hn hdir
    (validName_fileTag hnames m.pid) h
  exact read_filed_iff hn (hc.trans hc') hfiled

end Store

variable (X : Crates) (st : Store)

/-- What `put_object` of these bytes leaves to be got: they are no longer than
an object may be, and what is at the object's path decompresses to them, or
nothing is there and no link in its place is on the way. -/
def GivesBack (fs : Fs) (data : Bytes) : Prop :=
  data.length ≤ MAX_OBJECT_SIZE ∧
    if fs.exists (st.objectPath (X.blake3 data)) then
      ∃ stored, fs.read (st.objectPath (X.blake3 data)) = .ok stored ∧
        X.zstdRead (MAX_OBJECT_SIZE + 1) stored = .ok data
    else fs.Steady (st.objectPath (X.blake3 data))

/-- What is got when a file is read. -/
theorem getObject_iff {fs : Fs} {data : Bytes} :
    st.getObject X fs (X.blake3 data) = .ok data ↔ data.length ≤ MAX_OBJECT_SIZE ∧
      ∃ stored, fs.read (st.objectPath (X.blake3 data)) = .ok stored ∧
        X.zstdRead (MAX_OBJECT_SIZE + 1) stored = .ok data := by
  constructor
  · intro hget
    refine ⟨(Store.blake3_of_getObject X st hget).2, ?_⟩
    unfold Store.getObject Store.readBlob at hget
    cases hread : fs.read (st.objectPath (X.blake3 data)) with
    | error e =>
        rw [hread] at hget
        cases e <;> cases hget
    | ok stored =>
        rw [hread] at hget
        refine ⟨stored, rfl, ?_⟩
        cases hzstd : X.zstdRead (MAX_OBJECT_SIZE + 1) stored with
        | error e =>
            simp only [bind, Except.bind, hzstd, ioErr] at hget
            cases hget
        | ok got =>
            simp only [bind, Except.bind, hzstd, ioErr] at hget
            split at hget
            · cases hget
            · split at hget
              · cases hget
              · rw [Except.ok.inj hget]
  · rintro ⟨hlen, stored, hread, hzstd⟩
    unfold Store.getObject Store.readBlob
    rw [hread]
    simp only [bind, Except.bind, hzstd, ioErr]
    rw [if_neg (by omega), if_neg (not_not.mpr rfl)]

/-- What comes back is what the tree before the write decides. -/
theorem putObject_iff {data : Bytes} {h : Hash} {m m' : Machine} (hzstd : Lossless X)
    (hroot : ∀ n ∈ st.root, ValidName n) (hput : st.putObject X data m = .ok h m') :
    h = X.blake3 data ∧ (st.getObject X m'.fs h = .ok data ↔ GivesBack X st m.fs data) := by
  unfold Store.putObject at hput
  obtain ⟨_, m₁, hblob, hpure⟩ := bind_eq_ok.mp hput
  cases hpure
  refine ⟨rfl, (getObject_iff X st).trans (and_congr_right fun hlen => ?_)⟩
  have hdir : ∀ n ∈ st.fabricDir, ValidName n := by
    intro n hn
    rcases List.mem_append.mp hn with hn | hn
    · exact hroot n hn
    · rw [List.mem_singleton.mp hn]
      decide
  have hne : st.objectPath (X.blake3 data) ≠ [] := Store.fanPath_ne_nil _ _
  have hnames : ∀ n ∈ st.objectPath (X.blake3 data), ValidName n :=
    Store.fanPath_valid hdir (by decide) _
  cases hthere : m.fs.exists (st.objectPath (X.blake3 data)) with
  | true =>
      rw [if_pos rfl]
      unfold Store.putBlob at hblob
      rw [bind_apply, look_get] at hblob
      simp only [hthere, if_true] at hblob
      cases hblob
      exact Iff.rfl
  | false =>
      rw [if_neg (by simp)]
      have hread := Store.putBlob_read hne hnames hblob hthere
      by_cases hsteady : m.fs.Steady (st.objectPath (X.blake3 data))
      · rw [if_pos hsteady] at hread
        have hwhole := hzstd data (MAX_OBJECT_SIZE + 1)
        rw [List.take_of_length_le (by omega)] at hwhole
        exact iff_of_true ⟨_, hread, hwhole⟩ hsteady
      · rw [if_neg hsteady] at hread
        obtain ⟨e, he⟩ := hread
        apply iff_of_false _ hsteady
        rintro ⟨stored, hstored, -⟩
        rw [he] at hstored
        cases hstored

/-- **What was put is got, on a condition.** -/
theorem put_get_iff (hzstd : Lossless X) (hroot : ∀ n ∈ st.root, ValidName n) (m : Machine)
    (data : Bytes) :
    (∀ h m', st.putObject X data m = .ok h m' →
      (st.getObject X m'.fs h = .ok data ↔ GivesBack X st m.fs data)) ∧
    ∀ h m', st.putObjectAs X h data m = .ok () m' →
      (st.getObject X m'.fs h = .ok data ↔ GivesBack X st m.fs data) := by
  constructor
  · intro h m' hput
    exact (putObject_iff X st hzstd hroot hput).2
  · intro h m' hput
    unfold Store.putObjectAs at hput
    by_cases hhash : X.blake3 data = h
    · rw [if_neg (not_not.mpr hhash)] at hput
      obtain ⟨h', m₁, hobject, hpure⟩ := bind_eq_ok.mp hput
      cases hpure
      obtain ⟨rfl, hiff⟩ := putObject_iff X st hzstd hroot hobject
      exact hhash ▸ hiff
    · rw [if_pos hhash] at hput
      cases hput

/-- A fabric in which the object of `A` was cut short. -/
def cutShortFabric : Fs :=
  Fs.build (Store.fabricNodes ⟨[str "w"]⟩ [] ++
    Store.blobNodes ⟨[str "w"]⟩ (str "objects") (padHash (str "A")) [])

theorem smallCrates_lossless : Lossless (smallCrates [] [] []) := fun _ _ => rfl

/-- Other bytes are stored beside it and given back. -/
theorem put_get_beside :
    ∃ h m', Store.putObject (smallCrates [] [] []) ⟨[str "w"]⟩ (str "B")
        (Machine.start cutShortFabric) = .ok h m' ∧
      Store.getObject (smallCrates [] [] []) ⟨[str "w"]⟩ m'.fs h = .ok (str "B") := by
  have hok : succeeded (Store.putObject (smallCrates [] [] []) ⟨[str "w"]⟩ (str "B")
      (Machine.start cutShortFabric)) = true := by decide +kernel
  obtain ⟨h, hput⟩ := exists_of_succeeded hok
  have hgives : GivesBack (smallCrates [] [] []) ⟨[str "w"]⟩ cutShortFabric (str "B") := by
    refine ⟨by decide, ?_⟩
    rw [if_neg (by decide +kernel)]
    decide +kernel
  have hiff := (put_get_iff (smallCrates [] [] []) ⟨[str "w"]⟩ smallCrates_lossless (by decide)
    (Machine.start cutShortFabric) (str "B")).1 h _ hput
  exact ⟨h, _, hput, hiff.mpr hgives⟩

/-- **A file that was cut short is trusted.**  Putting `A` again returns without
an error, and nothing can be got. -/
theorem cut_short_trusted :
    Lossless (smallCrates [] [] []) ∧ ∃ m',
      Store.putObject (smallCrates [] [] []) ⟨[str "w"]⟩ (str "A")
        (Machine.start cutShortFabric) = .ok (padHash (str "A")) m' ∧
      Store.putObjectAs (smallCrates [] [] []) ⟨[str "w"]⟩ (padHash (str "A")) (str "A")
        (Machine.start cutShortFabric) = .ok () m' ∧
      Store.getObject (smallCrates [] [] []) ⟨[str "w"]⟩ m'.fs (padHash (str "A")) ≠
        .ok (str "A") := by
  have hput : yields (padHash (str "A")) (Store.putObject (smallCrates [] [] []) ⟨[str "w"]⟩
      (str "A") (Machine.start cutShortFabric)) = true := by decide +kernel
  have hobject := eq_ok_of_yields hput
  refine ⟨smallCrates_lossless, _, hobject, ?_, ?_⟩
  · have hhash : ¬ (smallCrates [] [] []).blake3 (str "A") ≠ padHash (str "A") := not_not.mpr rfl
    unfold Store.putObjectAs
    rw [if_neg hhash, bind_apply, hobject]
    rfl
  · decide +kernel

end Respawn
