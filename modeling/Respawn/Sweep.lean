import Mathlib.Data.Set.Card
import Respawn.Admission
import Respawn.Crash

/-!
# What a purge deletes

`list` lists every stored snapshot that loads (`mem_list`), so the plan of a
purge knows for each chunk whether it is recorded for the path and for other
paths (`chunks_of_plan`).
-/

namespace Respawn

open ByteStr FileTree StateLogic

variable {X : Crates} {st : Store}

namespace Snapshot

variable {fs : Fs} {id : Hash} {mf : Manifest}

/-! ## The stored snapshots -/

/-- The ids on HEAD's chain are those met, and each is there with its manifest. -/
theorem mem_headChain {fuel : Nat} {seen seen' : List Hash} {cur : Option Hash}
    {chain : List (Hash × Manifest)} (h : headChain X st fs fuel seen cur = .ok (chain, seen')) :
    (∀ e ∈ chain, load X st fs e.1 = .ok e.2) ∧
      ∀ id, id ∈ seen' ↔ id ∈ seen ∨ id ∈ chain.map Prod.fst := by
  induction fuel generalizing seen cur chain with
  | zero =>
      cases h
      exact ⟨by simp, by simp⟩
  | succ fuel ih =>
      cases cur with
      | none =>
          cases h
          exact ⟨by simp, by simp⟩
      | some id =>
          unfold headChain at h
          by_cases hseen : id ∈ seen
          · rw [if_pos hseen] at h
            cases h
            exact ⟨by simp, by simp⟩
          · rw [if_neg hseen] at h
            cases hload : load X st fs id with
            | error e =>
                rw [hload] at h
                cases h
            | ok m =>
                rw [hload] at h
                simp only at h
                cases hrest : headChain X st fs fuel (id :: seen) m.parent with
                | error e =>
                    rw [hrest] at h
                    cases h
                | ok r =>
                    obtain ⟨out, seen''⟩ := r
                    rw [hrest] at h
                    cases h
                    obtain ⟨hloads, hmet⟩ := ih hrest
                    refine ⟨?_, ?_⟩
                    · intro e he
                      rcases List.mem_cons.mp he with rfl | he
                      · exact hload
                      · exact hloads e he
                    · intro g
                      rw [hmet]
                      simp only [List.mem_cons, List.map_cons]
                      constructor
                      · rintro ((hg | hg) | hg)
                        · exact Or.inr (Or.inl hg)
                        · exact Or.inl hg
                        · exact Or.inr (Or.inr hg)
                      · rintro (hg | hg | hg)
                        · exact Or.inl (Or.inr hg)
                        · exact Or.inl (Or.inl hg)
                        · exact Or.inr hg

/-- The name of a stored manifest is a hash name. -/
theorem isHashName_hashHex (h : Hash) : isHashName (hashHex h) = true := by
  unfold isHashName
  rw [hashHex_length]
  simp only [decide_true, Bool.true_and, List.all_eq_true, Bool.or_eq_true, Bool.and_eq_true,
    decide_eq_true_eq]
  intro b hb
  exact hexEncode_digit hb

/-- The name of a node is among those that its directory lists. -/
theorem mem_readDir {dir : Path} {n : Name} {x : Node} {names : List Name}
    (hdir : fs.get dir = some .dir) (hx : fs.get (dir ++ [n]) = some x)
    (h : fs.readDir dir = .ok names) : n ∈ names := by
  unfold Fs.readDir at h
  rw [Fs.resolve_of_get hdir (by simp)] at h
  simp only [hdir] at h
  split at h
  · cases h
  rw [← Except.ok.inj h, List.mem_insertionSort, List.mem_filterMap]
  refine ⟨dir ++ [n], ?_, by simp⟩
  simpa using fs.mem_keys hx

/-- The two halves of a hash, read as names. -/
theorem lossy_halves (h : Hash) :
    lossy ((hashHex h).take 2) ++ lossy ((hashHex h).drop 2) = hashHex h := by
  have hascii : ∀ s, (∀ b ∈ s, b ∈ hashHex h) → lossy s = s := by
    intro s hs
    apply lossy_eq_self
    apply validUtf8_ascii
    intro b hb
    exact UInt8.lt_of_le_of_lt (printing_hexEncode h.val b (hs b hb)).2 (by decide)
  rw [hascii _ fun b hb => List.mem_of_mem_take hb, hascii _ fun b hb => List.mem_of_mem_drop hb,
    List.take_append_drop]

/-- A computation that goes on after a result had the result. -/
theorem bind_eq_ok_of_except {ε α β : Type} {x : Except ε α} {f : α → Except ε β} {b : β}
    (h : (x >>= f) = .ok b) : ∃ a, x = .ok a ∧ f a = .ok b := by
  cases x with
  | error e => cases h
  | ok a => exact ⟨a, rfl, h⟩

/-- Every file under its hash is found. -/
theorem mem_storedIds {kind : Name} {ids : List Hash} (h : storedIds st kind fs = .ok ids)
    {d : FileData} (hd : fs.get (st.fanPath kind id) = some (.file d)) : id ∈ ids := by
  have hfan : fs.get (st.fabricDir ++ [kind, (hashHex id).take 2]) = some .dir := by
    rw [← Store.fanPath_dropLast]
    exact Fs.get_dropLast _ hd (by simp [Store.fanPath])
  have hdir : fs.get (st.fabricDir ++ [kind]) = some .dir :=
    Fs.dir_of_prefix hfan ((List.prefix_append_right_inj _).mpr ⟨[(hashHex id).take 2], rfl⟩)
  have hisDir : fs.isDir (st.fabricDir ++ [kind]) = true := by
    unfold Fs.isDir
    rw [Fs.metadata_of_get hdir (by simp)]
  unfold storedIds at h
  rw [if_pos hisDir] at h
  cases hfans : fs.readDir (st.fabricDir ++ [kind]) with
  | error e =>
      rw [hfans] at h
      cases h
  | ok fans =>
      rw [hfans] at h
      simp only at h
      have hmem : (hashHex id).take 2 ∈ fans := mem_readDir hdir (by simpa using hfan) hfans
      obtain ⟨lists, hlists, hflat⟩ := bind_eq_ok_of_except h
      obtain ⟨out, hout, hin⟩ := scan_mem hlists hmem
      rw [Fs.symlinkMetadata_of_get hfan] at hout
      simp only at hout
      cases hnames : fs.readDir (st.fabricDir ++ [kind, (hashHex id).take 2]) with
      | error e =>
          rw [hnames] at hout
          cases hout
      | ok names =>
          rw [hnames] at hout
          have hname : (hashHex id).drop 2 ∈ names :=
            mem_readDir hfan (x := .file d) (by simpa [Store.fanPath] using hd) hnames
          rw [← Except.ok.inj hflat, List.mem_flatten]
          refine ⟨_, hin _ (Except.ok.inj hout).symm, ?_⟩
          rw [List.mem_filterMap]
          refine ⟨_, hname, ?_⟩
          rw [lossy_halves, if_pos (isHashName_hashHex id), parseHash_hashHex]
          rfl

/-- **What is listed is what loads.** -/
theorem mem_list (hreal : st.Real fs) {all : List (Hash × Manifest)}
    (h : list X st fs = .ok all) : (id, mf) ∈ all ↔ load X st fs id = .ok mf := by
  unfold list at h
  obtain ⟨head, _, h₁⟩ := bind_eq_ok_of_except h
  obtain ⟨⟨chain, seen⟩, hchain, h₂⟩ := bind_eq_ok_of_except h₁
  obtain ⟨ids, hids, h₃⟩ := bind_eq_ok_of_except h₂
  obtain ⟨hloads, hmet⟩ := mem_headChain hchain
  rw [← Except.ok.inj h₃, List.mem_insertionSort, List.mem_append, List.mem_filterMap]
  constructor
  · intro hmem
    rcases hmem with hmem | ⟨g, _, hg⟩
    · exact hloads _ hmem
    · by_cases hseen : g ∈ seen
      · rw [if_pos hseen] at hg
        cases hg
      · rw [if_neg hseen] at hg
        split at hg
        case _ m hm =>
          cases hg
          exact hm
        · cases hg
  · intro hload
    by_cases hseen : id ∈ seen
    · left
      have hin := (hmet id).mp hseen
      rw [or_iff_right List.not_mem_nil] at hin
      obtain ⟨e, he, rfl⟩ := List.mem_map.mp hin
      cases (hloads e he).symm.trans hload
      exact he
    · right
      obtain ⟨d, hd, _⟩ := (load_eq_ok hreal).mp hload
      refine ⟨id, List.mem_eraseDups.mpr (mem_storedIds hids hd), ?_⟩
      rw [if_neg hseen, hload]

end Snapshot

namespace Purge

variable (X st)

/-! ## The plan -/

/-- A stored snapshot has the chunk in an entry for the path. -/
def ChunkAt (fs : Fs) (path : Bytes) (c : Hash) : Prop :=
  ∃ id mf, Snapshot.load X st fs id = .ok mf ∧ ∃ fe ∈ mf.files, fe.path = path ∧ c ∈ fe.chunks

/-- A stored snapshot has the chunk in an entry for another path. -/
def ChunkElsewhere (fs : Fs) (path : Bytes) (c : Hash) : Prop :=
  ∃ id mf, Snapshot.load X st fs id = .ok mf ∧ ∃ fe ∈ mf.files, fe.path ≠ path ∧ c ∈ fe.chunks

/-- Only entries for the path have the chunk. -/
def ChunkOnlyAt (fs : Fs) (path : Bytes) (c : Hash) : Prop :=
  ChunkAt X st fs path c ∧ ¬ ChunkElsewhere X st fs path c

variable {X st} {fs : Fs} {root : Path} {rel : Bytes} {p : Plan}

/-- The name of a canonical path in manifests is the path. -/
theorem name_of_canonical {r : RelPath} (h : Revert.Canonical rel)
    (hrel : sanitizeRel rel = .ok r) :
    replaceByte backslash slash (lossy r.text) = rel := by
  obtain ⟨comps, _, hcomps, rfl⟩ := h
  obtain ⟨hbytes, _⟩ := plain_of_sanitizeRel hrel
  have htext : r.text = joinSlash comps := by
    unfold sanitizeRel at hrel
    split at hrel
    · cases hrel
    · split at hrel
      · cases hrel
      · cases hrel
        rfl
  rw [htext, lossy_eq_self (validUtf8_joinSlash fun n hn => (hcomps n hn).2.2.2),
    replaceByte_eq_self hbytes.2]

/-- **What a plan knows of the chunks**: those recorded for the path, each
once, and those recorded for other paths. -/
theorem chunks_of_plan (hreal : st.Real fs) (h : plan X st root rel fs = .ok p) :
    p.relStr = replaceByte backslash slash (lossy p.rel.text) ∧ p.chunks.Nodup ∧
      (∀ c, c ∈ p.chunks ↔ ChunkAt X st fs p.relStr c) ∧
      ∀ c, c ∈ p.elsewhere ↔ ChunkElsewhere X st fs p.relStr c := by
  unfold plan at h
  split at h
  · cases h
  · split at h
    · cases h
    · split at h
      · cases h
      case _ all hlist =>
        simp only at h
        split at h
        · cases h
        · split at h
          · cases h
          · cases h
          · cases h
            have hmem : ∀ fe, fe ∈ all.flatMap (fun s => s.2.files) ↔
                ∃ id mf, Snapshot.load X st fs id = .ok mf ∧ fe ∈ mf.files := by
              intro fe
              rw [List.mem_flatMap]
              constructor
              · intro hfe
                obtain ⟨⟨id, mf⟩, he, hfe⟩ := hfe
                exact ⟨id, mf, (Snapshot.mem_list hreal hlist).mp he, hfe⟩
              · intro hfe
                obtain ⟨id, mf, hload, hfe⟩ := hfe
                exact ⟨(id, mf), (Snapshot.mem_list hreal hlist).mpr hload, hfe⟩
            have hchunks : ∀ (P : FileEntry → Bool) (c : Hash),
                c ∈ ((all.flatMap fun s => s.2.files).filter P).flatMap FileEntry.chunks ↔
                  ∃ id mf, Snapshot.load X st fs id = .ok mf ∧
                    ∃ fe ∈ mf.files, P fe = true ∧ c ∈ fe.chunks := by
              intro P c
              rw [List.mem_flatMap]
              constructor
              · intro hc
                obtain ⟨fe, hfe, hc⟩ := hc
                obtain ⟨hfe, hP⟩ := List.mem_filter.mp hfe
                obtain ⟨id, mf, hload, hfe⟩ := (hmem fe).mp hfe
                exact ⟨id, mf, hload, fe, hfe, hP, hc⟩
              · intro hc
                obtain ⟨id, mf, hload, fe, hfe, hP, hc⟩ := hc
                exact ⟨fe, List.mem_filter.mpr ⟨(hmem fe).mpr ⟨id, mf, hload, hfe⟩, hP⟩, hc⟩
            refine ⟨rfl, List.nodup_dedup _, ?_, ?_⟩
            · intro c
              simp only [scanManifests]
              rw [List.mem_dedup, hchunks]
              simp only [decide_eq_true_eq]
              rfl
            · intro c
              simp only [scanManifests]
              rw [hchunks]
              simp only [decide_eq_true_eq]
              rfl

/-! ## The sweep -/

/-- **What a sweep counts**: the unshared chunks that were there, and the shared
ones. -/
theorem sweep_counts {elsewhere chunks : List Hash} {counts counts' : Nat × Nat}
    {m m' : Machine} (hreal : st.Real m.fs) (hnodup : chunks.Nodup)
    (h : sweep st elsewhere chunks counts m = .ok counts' m') :
    counts'.1 = counts.1 +
        (unshared elsewhere chunks).countP (fun c => st.hasObject m.fs c) ∧
      counts'.2 = counts.2 + chunks.countP (· ∈ elsewhere) := by
  induction chunks generalizing counts m with
  | nil =>
      cases h
      exact ⟨rfl, rfl⟩
  | cons ch rest ih =>
      obtain ⟨removed, shared⟩ := counts
      obtain ⟨hfresh, hrest⟩ := List.nodup_cons.mp hnodup
      unfold sweep at h
      by_cases hshared : ch ∈ elsewhere
      · have hskip : unshared elsewhere (ch :: rest) = unshared elsewhere rest :=
          List.filter_cons_of_neg (by simpa using hshared)
        rw [if_pos hshared] at h
        obtain ⟨hremoved, hkept⟩ := ih hreal hrest h
        refine ⟨by rw [hskip]; exact hremoved, ?_⟩
        rw [List.countP_cons_of_pos (by simpa using hshared)]
        omega
      · have htake : unshared elsewhere (ch :: rest) = ch :: unshared elsewhere rest :=
          List.filter_cons_of_pos (by simpa using hshared)
        rw [if_neg hshared, bind_apply, look_get] at h
        simp only at h
        rw [htake, List.countP_cons_of_neg (p := (· ∈ elsewhere)) (by simpa using hshared)]
        by_cases hpresent : st.hasObject m.fs ch = true
        · rw [if_pos hpresent] at h
          obtain ⟨_, m₁, hremove, hgo⟩ := bind_eq_ok.mp h
          obtain ⟨w, hw, rfl⟩ := io_eq_ok.mp hremove
          obtain ⟨r, x, hres, hleaf, rfl⟩ := removeFile_ok hw
          have hplace : r = st.objectPath ch :=
            hreal.resolve_eq (p := st.objectPath ch) (List.prefix_append _ _)
              (Store.fanPath_names hreal (by decide) ch) hres
          subst hplace
          have htouched := Store.Touched.of_unlink (S := fun q => q = st.objectPath ch)
              hreal hleaf rfl
          obtain ⟨hremoved, hkept⟩ := ih htouched.real hrest hgo
          refine ⟨?_, hkept⟩
          -- the other objects are still there
          have hsame : (unshared elsewhere rest).countP (fun c => st.hasObject
              (m.fs.exec (.unlink (st.objectPath ch))) c) =
              (unshared elsewhere rest).countP (fun c => st.hasObject m.fs c) := by
            apply List.countP_congr
            intro c hc
            have hne : c ≠ ch := by
              intro heq
              exact hfresh (heq ▸ (List.mem_filter.mp hc).1)
            rw [Sync.hasObject_iff htouched.real, Sync.hasObject_iff hreal,
              htouched.frame (st.objectPath c) fun heq => hne (Store.fanPath_injective heq)]
          have hremoved' : counts'.1 = removed + 1 +
              (unshared elsewhere rest).countP (fun c => st.hasObject m.fs c) := by
            rw [← hsame]
            exact hremoved
          rw [List.countP_cons_of_pos (p := fun c => st.hasObject m.fs c) hpresent, hremoved']
          omega
        · rw [if_neg hpresent] at h
          rw [List.countP_cons_of_neg (p := fun c => st.hasObject m.fs c) hpresent]
          exact ih hreal hrest h

/-- The elements of a list that satisfy a test, counted. -/
theorem ncard_eq_countP {α : Type} {l : List α} (hnodup : l.Nodup) (P : α → Bool) {S : Set α}
    (hS : ∀ a, a ∈ S ↔ a ∈ l ∧ P a = true) : S.ncard = l.countP P := by
  classical
  have hset : S = ((l.filter P).toFinset : Set α) := by
    ext a
    rw [hS]
    simp
  rw [hset, Set.ncard_coe_finset, List.toFinset_card_of_nodup (hnodup.filter P),
    List.countP_eq_length_filter]

/-- Removing the live file removes no directory. -/
theorem removeLive_keeps_dir {live q : Path} {m : Machine} (hreal : st.Real m.fs)
    (hdir : m.fs.get q = some .dir) :
    After (removeLive live m) (fun _ m' => st.Real m'.fs ∧ m'.fs.get q = some .dir)
      (fun _ _ => True) := by
  unfold removeLive
  rw [bind_apply, look_get]
  simp only
  by_cases hlive : m.fs.isFile live = true
  · rw [if_pos hlive]
    apply After.bind (P := fun _ m' => st.Real m'.fs ∧ m'.fs.get q = some .dir)
    · apply after_io
      cases hremove : removeFile live m.toWorld with
      | error e w => trivial
      | ok u w =>
          obtain ⟨r, x, hres, hleaf, rfl⟩ := removeFile_ok hremove
          refine ⟨(Store.Touched.of_unlink (S := fun q => q = r) hreal hleaf rfl).real, ?_⟩
          have hne : q ≠ r := by
            intro heq
            have hx := m.fs.leaf_eq_some.mp (heq ▸ hleaf)
            exact hx.2 (Option.some.inj (hx.1.symm.trans hdir))
          show (m.fs.exec (.unlink r)).get q = some .dir
          rw [Fs.get_exec_unlink hleaf, if_neg hne]
          exact hdir
    · intro _ _ h
      exact h
  · rw [if_neg hlive]
    exact ⟨hreal, hdir⟩

/-- After the sweep directories stay, in the places of objects. -/
theorem finish_keeps_dir {counts : Nat × Nat} {m : Machine} {c : Hash} (hreal : st.Real m.fs)
    (hdir : m.fs.get (st.objectPath c) = some .dir) :
    After (finish X st root p counts m) (fun _ m' => m'.fs.get (st.objectPath c) = some .dir)
      (fun _ _ => True) := by
  have hnames := record_names hreal (n := str "purged.jsonl") (by decide)
  unfold finish
  rw [bind_apply, get_apply]
  simp only
  apply After.bind (P := fun _ m₁ => st.Real m₁.fs ∧ m₁.fs.get (st.objectPath c) = some .dir)
  · unfold bury
    rw [bind_apply]
    simp only [io, createDirAll_of_dir hreal.dir]
    have happend : After (Store.appendLine (tombstonePath st)
        (X.tombstoneToJson (tombstone X p (unixSecs m.clock))) m) _ _ :=
      Store.Touched.of_appendLine (S := fun q => q = tombstonePath st) hreal
        (List.prefix_append _ _) hnames rfl
    apply happend.mono
    · intro _ m₁ h
      exact ⟨h.real, (h.frame _ (tombstonePath_ne_objectPath c).symm).trans hdir⟩
    · intro _ _ _
      trivial
  intro _ m₁ h₁
  obtain ⟨hreal₁, hdir₁⟩ := h₁
  apply After.bind (P := fun _ m₂ => st.Real m₂.fs ∧ m₂.fs.get (st.objectPath c) = some .dir)
  · exact (removeLive_keeps_dir hreal₁ hdir₁).mono (fun _ _ h => h) fun _ _ _ => trivial
  intro _ m₂ h₂
  obtain ⟨hreal₂, hdir₂⟩ := h₂
  apply After.bind (P := fun _ m₃ => st.Touched st.Aside m₂.fs m₃.fs)
  · exact (certify_after hreal₂).mono (fun _ _ h => h) fun _ _ _ => trivial
  intro cert m₃ h₃
  obtain ⟨certPath, note⟩ := cert
  apply After.bind (P := fun _ m₄ => st.Touched (fun q => q = Audit.auditPath st) m₃.fs m₄.fs)
  · exact (record_after h₃.real).mono (fun _ _ h => h) fun _ _ _ => trivial
  intro _ m₄ h₄
  have haudit : st.objectPath c ≠ Audit.auditPath st := by
    intro heq
    have hlen := congrArg List.length heq
    simp [Audit.auditPath, Store.objectPath, Store.fanPath] at hlen
  show m₄.fs.get (st.objectPath c) = some .dir
  rw [h₄.frame _ haudit, h₃.frame _ (objectPath_not_aside c)]
  exact hdir₂

/-- The report has the counts of the sweep. -/
theorem counts_of_finish {counts : Nat × Nat} {report : PurgeReport} {m m' : Machine}
    (h : finish X st root p counts m = .ok report m') :
    report.chunksRemoved = counts.1 ∧ report.chunksRetainedShared = counts.2 := by
  unfold finish at h
  obtain ⟨_, _, _, h₁⟩ := bind_eq_ok.mp h
  obtain ⟨_, _, _, h₂⟩ := bind_eq_ok.mp h₁
  obtain ⟨_, _, _, h₃⟩ := bind_eq_ok.mp h₂
  obtain ⟨⟨_, _⟩, _, _, h₄⟩ := bind_eq_ok.mp h₃
  obtain ⟨_, _, _, h₅⟩ := bind_eq_ok.mp h₄
  cases h₅
  exact ⟨rfl, rfl⟩

/-! ## The objects after a purge -/

variable (X st)

/-- From `fs` to `fs'` the objects are lost that only entries for the path
have, and no others; the report counts what was deleted and what is shared. -/
structure SweepsExactly (path : Bytes) (fs fs' : Fs) (report : PurgeReport) : Prop where
  gone : ∀ c, ChunkOnlyAt X st fs path c → fs'.get (st.objectPath c) = none
  kept : ∀ c, ¬ ChunkOnlyAt X st fs path c →
    fs'.get (st.objectPath c) = fs.get (st.objectPath c)
  removed : report.chunksRemoved =
    {c | st.hasObject fs c = true ∧ st.hasObject fs' c = false}.ncard
  shared : report.chunksRetainedShared =
    {c | ChunkAt X st fs path c ∧ ChunkElsewhere X st fs path c}.ncard
  safe : ∀ c, ChunkElsewhere X st fs path c → st.hasObject fs c = true →
    st.hasObject fs' c = true

/-- The path leads to the file of an object that has to stay. -/
def LeadsToKept (rel : Bytes) (fs : Fs) : Prop :=
  ∃ r c d, sanitizeRel rel = .ok r ∧ fs.resolve false (r.under st.root) = .ok (st.objectPath c) ∧
    fs.get (st.objectPath c) = some (.file d) ∧ ¬ ChunkOnlyAt X st fs rel c

variable {X st}

/-- A sweep, in whatever order, counts the objects of the path alone, and the
chunks that other paths have too. -/
theorem counts_of_sweep {order : List Hash → List Hash} {m m' : Machine} {counts : Nat × Nat}
    (horder : ∀ l, (order l).Perm l) (hreal : st.Real m.fs) (hnodup : p.chunks.Nodup)
    (hat : ∀ c, c ∈ p.chunks ↔ ChunkAt X st m.fs rel c)
    (helsewhere : ∀ c, c ∈ p.elsewhere ↔ ChunkElsewhere X st m.fs rel c)
    (h : sweep st p.elsewhere (order p.chunks) (0, 0) m = .ok counts m') :
    (∀ c, c ∈ unshared p.elsewhere (order p.chunks) ↔ ChunkOnlyAt X st m.fs rel c) ∧
      counts.1 = {c | st.hasObject m.fs c = true ∧ ChunkOnlyAt X st m.fs rel c}.ncard ∧
      counts.2 = {c | ChunkAt X st m.fs rel c ∧ ChunkElsewhere X st m.fs rel c}.ncard := by
  have hnodup' : (order p.chunks).Nodup := (horder p.chunks).nodup_iff.mpr hnodup
  have honly : ∀ c, c ∈ unshared p.elsewhere (order p.chunks) ↔ ChunkOnlyAt X st m.fs rel c := by
    intro c
    rw [unshared, List.mem_filter, (horder p.chunks).mem_iff, hat]
    simp only [decide_eq_true_eq, helsewhere]
    rfl
  obtain ⟨hremoved, hshared⟩ := sweep_counts hreal hnodup' h
  refine ⟨honly, ?_, ?_⟩
  · rw [hremoved, Nat.zero_add]
    refine (ncard_eq_countP (hnodup'.filter _) _ ?_).symm
    intro c
    show _ ↔ c ∈ unshared p.elsewhere (order p.chunks) ∧ _
    rw [honly]
    exact and_comm
  · rw [hshared, Nat.zero_add]
    refine (ncard_eq_countP hnodup' _ ?_).symm
    intro c
    rw [(horder p.chunks).mem_iff, hat, decide_eq_true_eq, helsewhere]
    rfl

/-- What a purge that succeeds leaves of an object. -/
theorem object_after {order : List Hash → List Hash} {report : PurgeReport} {m m' : Machine}
    (horder : ∀ l, (order l).Perm l) (hreal : st.Real m.fs) (hcanonical : Revert.Canonical rel)
    (hrun : run X st order st.root rel m = .ok report m') :
    ∃ r, sanitizeRel rel = .ok r ∧ st.Real m'.fs ∧
      (∀ c, ChunkOnlyAt X st m.fs rel c → m'.fs.get (st.objectPath c) = none) ∧
      (∀ c, ¬ ChunkOnlyAt X st m.fs rel c →
        m'.fs.get (st.objectPath c) = m.fs.get (st.objectPath c) ∨
          m.fs.resolve false (r.under st.root) = .ok (st.objectPath c) ∧
            m.fs.get (st.objectPath c) ≠ some .dir ∧ m'.fs.get (st.objectPath c) = none) ∧
      (∀ c d, m.fs.resolve false (r.under st.root) = .ok (st.objectPath c) →
        m.fs.get (st.objectPath c) = some (.file d) → m'.fs.get (st.objectPath c) = none) ∧
      report.chunksRemoved = {c | st.hasObject m.fs c = true ∧ ChunkOnlyAt X st m.fs rel c}.ncard ∧
      report.chunksRetainedShared =
        {c | ChunkAt X st m.fs rel c ∧ ChunkElsewhere X st m.fs rel c}.ncard := by
  unfold run at hrun
  obtain ⟨p, m₀, hplan, hrest⟩ := bind_eq_ok.mp hrun
  obtain ⟨hplan, rfl⟩ := look_eq_ok.mp hplan
  obtain ⟨counts, m₁, hsweep, hfinish⟩ := bind_eq_ok.mp hrest
  obtain ⟨hrel, _⟩ := plan_eq_ok hplan
  obtain ⟨hname, hnodup, hat, helsewhere⟩ := chunks_of_plan hreal hplan
  rw [name_of_canonical hcanonical hrel] at hname
  rw [hname] at hat helsewhere
  obtain ⟨honly, hremoved, hshared⟩ :=
    counts_of_sweep horder hreal hnodup hat helsewhere hsweep
  obtain ⟨hswept, _⟩ := (sweep_after hreal).ok hsweep
  obtain ⟨text, htext⟩ := hasText_of_plan hreal hplan
  have htext₁ := hswept.hasText htext
  obtain ⟨mid, fs₃, hinterred, haudit⟩ := (finish_after hswept.touched.real htext₁).ok hfinish
  obtain ⟨_, hwritten, _⟩ := hinterred.written
  have hshape := (hswept.sameShape hreal).trans
    (sameShape_of_buried htext₁ hwritten hinterred.before)
  -- what the sweep leaves is what stands at the stage `mid`
  have hmid : ∀ c, mid.get (st.objectPath c) = m₁.fs.get (st.objectPath c) := fun c =>
    hinterred.before _ (tombstonePath_ne_objectPath c).symm
  have hend : ∀ c, m'.fs.get (st.objectPath c) = fs₃.get (st.objectPath c) := by
    intro c
    apply haudit.frame
    intro heq
    have hlen := congrArg List.length heq
    simp [Audit.auditPath, Store.objectPath, Store.fanPath] at hlen
  have hold : ∀ c, ¬ ChunkOnlyAt X st m₀.fs rel c →
      m₁.fs.get (st.objectPath c) = m₀.fs.get (st.objectPath c) := by
    intro c hc
    apply hswept.touched.frame
    intro hmem
    obtain ⟨g, hg, heq⟩ := hmem
    exact hc ((honly c).mp (Store.fanPath_injective heq ▸ hg))
  have hgone : ∀ c, ChunkOnlyAt X st m₀.fs rel c → m'.fs.get (st.objectPath c) = none := by
    intro c hc
    have hnone := hswept.gone c ((honly c).mpr hc)
    rw [hend]
    rcases hinterred.after _ (objectPath_not_aside c) with heq | ⟨_, hgone⟩
    · rw [heq, hmid, hnone]
    · exact hgone
  obtain ⟨hreported, hreported'⟩ := counts_of_finish hfinish
  refine ⟨p.rel, hrel, haudit.real, hgone, ?_, ?_, ?_, ?_⟩
  · intro c hc
    rcases hinterred.after _ (objectPath_not_aside c) with heq | ⟨hres, hnone⟩
    · left
      rw [hend, heq, hmid, hold c hc]
    · right
      refine ⟨Fs.resolve_shape hshape.symm hres, ?_, by rw [hend, hnone]⟩
      intro hdir
      have hkept := (finish_keeps_dir hswept.touched.real ((hold c hc).trans hdir)).ok hfinish
      rw [hend, hnone] at hkept
      cases hkept
  · intro c d hres hd
    by_cases hc : ChunkOnlyAt X st m₀.fs rel c
    · exact hgone c hc
    · rw [hend]
      apply hinterred.live _ d (Fs.resolve_shape hshape hres) _ (objectPath_not_aside c)
      rw [hmid, hold c hc, hd]
  · rw [hreported, hremoved]
  · rw [hreported', hshared]

/-- **When a purge sweeps exactly.**  A purge of a canonical path that succeeds
deletes the objects that only entries for the path have, and counts honestly,
if and only if the path does not lead, through a link, to the file of another
object. -/
theorem run_sweeps_iff (X : Crates) (st : Store) {order : List Hash → List Hash}
    {report : PurgeReport} {m m' : Machine} (horder : ∀ l, (order l).Perm l)
    (hreal : st.Real m.fs) (hcanonical : Revert.Canonical rel)
    (hrun : run X st order st.root rel m = .ok report m') :
    SweepsExactly X st rel m.fs m'.fs report ↔ ¬ LeadsToKept X st rel m.fs := by
  obtain ⟨r, hrel, hreal', hgone, hkept, hlive, hremoved, hshared⟩ :=
    object_after horder hreal hcanonical hrun
  constructor
  · intro hexact hleads
    obtain ⟨r', c, d, hrel', hres, hd, hc⟩ := hleads
    have hr : r' = r := Except.ok.inj (hrel'.symm.trans hrel)
    subst hr
    have hsame := (hexact.kept c hc).symm.trans (hlive c d hres hd)
    rw [hd] at hsame
    cases hsame
  · intro hnot
    have hstays : ∀ c, ¬ ChunkOnlyAt X st m.fs rel c →
        m'.fs.get (st.objectPath c) = m.fs.get (st.objectPath c) := by
      intro c hc
      rcases hkept c hc with heq | ⟨hres, hdir, hnone⟩
      · exact heq
      · cases hx : m.fs.get (st.objectPath c) with
        | none => exact hnone
        | some x =>
            cases x with
            | dir => exact absurd hx hdir
            | symlink t => exact absurd hx (hreal.links _ t (List.prefix_append _ _))
            | file d => exact absurd ⟨r, c, d, hrel, hres, hx, hc⟩ hnot
    refine ⟨hgone, hstays, ?_, hshared, ?_⟩
    · rw [hremoved]
      congr 1
      ext c
      simp only [Set.mem_ofPred_eq]
      apply and_congr_right
      intro hthere
      rw [← Bool.not_eq_true, Sync.hasObject_iff hreal', not_not]
      constructor
      · exact hgone c
      · intro hnone
        by_contra hc
        rw [hstays c hc] at hnone
        exact (Sync.hasObject_iff hreal c).mp hthere hnone
    · intro c hc hthere
      rw [Sync.hasObject_iff hreal', hstays c fun honly => honly.2 hc]
      exact (Sync.hasObject_iff hreal c).mp hthere

/-- Every purge of a canonical path outside the fabric sweeps exactly. -/
def AlwaysSweepsExactly (X : Crates) (st : Store) : Prop :=
  ∀ (order : List Hash → List Hash) (rel : Bytes) (report : PurgeReport) (m m' : Machine),
    (∀ l, (order l).Perm l) → st.Real m.fs → AllLoad X st m.fs → Revert.Canonical rel →
    (∀ r, sanitizeRel rel = .ok r → FABRIC_DIR ∉ r.comps) →
    run X st order st.root rel m = .ok report m' → SweepsExactly X st rel m.fs m'.fs report

/-- A snapshot of two files that share a chunk. -/
def sharingManifest : Manifest :=
  smallManifest none none
    [{ smallEntry (str "a") (str "AS") with chunks := [padHash (str "A"), padHash (str "S")] },
     smallEntry (str "b") (str "S")]

def sharingCrates : Crates := smallCrates [(str "one", sharingManifest)] [] []

/-- The fabric with that snapshot and its chunks, a signing key, and a link `l`
in the worktree into the directory of the shared chunk. -/
def sharingFabric : Fs :=
  Fs.build (Store.fabricNodes ⟨[str "w"]⟩ (hashHex (padHash (str "one"))) ++
    Store.blobNodes ⟨[str "w"]⟩ (str "manifests") (padHash (str "one")) (str "one") ++
    Store.blobNodes ⟨[str "w"]⟩ (str "objects") (padHash (str "A")) (str "A") ++
    Store.blobNodes ⟨[str "w"]⟩ (str "objects") (padHash (str "S")) (str "S") ++
    [(Keychain.secretPath ⟨[str "w"]⟩, Store.plainFile (hexEncode (List.replicate 32 7))),
     (Anchor.fabricIdPath ⟨[str "w"]⟩, Store.plainFile (str "fabric")),
     ([str "w", str "a"], Store.plainFile (str "AS")),
     ([str "w", str "l"], .symlink (str ".respawn/objects/" ++
        (hashHex (padHash (str "S"))).take 2))])

/-- Purging a path there. -/
abbrev sharingPurge (rel : Bytes) : EStateM.Result Error Machine PurgeReport :=
  run sharingCrates ⟨[str "w"]⟩ id [str "w"] rel (Machine.start sharingFabric)

/-- The way to the shared chunk through the link. -/
def throughLink : Bytes := str "l/" ++ (hashHex (padHash (str "S"))).drop 2

theorem sharingFabric_real : Store.Real ⟨[str "w"]⟩ (Machine.start sharingFabric).fs :=
  Store.Real.of_keys (by decide +kernel) (by decide +kernel)

/-- The snapshots of the fabric load. -/
theorem sharingFabric_allLoad :
    AllLoad sharingCrates ⟨[str "w"]⟩ (Machine.start sharingFabric).fs := by
  intro h hhas
  have hthere := (hasManifest_iff sharingFabric_real h).mp hhas
  obtain ⟨x, hx⟩ := Option.ne_none_iff_exists'.mp hthere
  have hkeys : ∀ k ∈ sharingFabric.nodes.keys, [str "w", FABRIC_DIR, str "manifests"] <+: k →
      k.length = 5 → k = Store.manifestPath ⟨[str "w"]⟩ (padHash (str "one")) := by
    decide +kernel
  have hone := hkeys _ (sharingFabric.mem_keys hx) ⟨_, rfl⟩ rfl
  rw [Store.fanPath_injective hone]
  exact ⟨sharingManifest, eq_ok_of_toOption (by decide +kernel)⟩

/-- **A purge through a link deletes a chunk that another file needs.** -/
theorem run_loses_shared : ¬ AlwaysSweepsExactly sharingCrates ⟨[str "w"]⟩ := by
  intro halways
  obtain ⟨report, hrun⟩ := exists_of_succeeded (r := sharingPurge throughLink) (by decide +kernel)
  have hcanonical : Revert.Canonical throughLink :=
    ⟨[str "l", (hashHex (padHash (str "S"))).drop 2], by decide, by decide, by decide⟩
  have hinside : ∀ r, sanitizeRel throughLink = .ok r → FABRIC_DIR ∉ r.comps := by
    intro r hr
    have hcomps : (sanitizeRel throughLink).toOption.map RelPath.comps =
        some [str "l", (hashHex (padHash (str "S"))).drop 2] := by decide +kernel
    rw [hr] at hcomps
    rw [Option.some.inj hcomps]
    decide
  have hexact := halways id throughLink report _ _ (fun _ => List.Perm.refl _) sharingFabric_real
    sharingFabric_allLoad hcanonical hinside hrun
  have hneeded : ChunkElsewhere sharingCrates ⟨[str "w"]⟩ (Machine.start sharingFabric).fs
      throughLink (padHash (str "S")) :=
    ⟨padHash (str "one"), sharingManifest, eq_ok_of_toOption (by decide +kernel),
      smallEntry (str "b") (str "S"), by decide, by decide, by decide⟩
  have hlost := hexact.safe _ hneeded (by decide +kernel)
  exact absurd hlost (by decide +kernel)

/-- A purge of a path that shares a chunk. -/
theorem run_sweeps_iff_sharing : ∃ report, sharingPurge (str "a") = .ok report
      (finalState (sharingPurge (str "a"))) ∧
    SweepsExactly sharingCrates ⟨[str "w"]⟩ (str "a") (Machine.start sharingFabric).fs
      (finalState (sharingPurge (str "a"))).fs report := by
  obtain ⟨report, hrun⟩ := exists_of_succeeded (r := sharingPurge (str "a")) (by decide +kernel)
  have hcanonical : Revert.Canonical (str "a") := ⟨[str "a"], by decide, by decide, by decide⟩
  refine ⟨report, hrun, (run_sweeps_iff sharingCrates ⟨[str "w"]⟩ (fun _ => List.Perm.refl _)
    sharingFabric_real hcanonical hrun).mpr ?_⟩
  intro hleads
  obtain ⟨r, c, d, hrel, hres, _⟩ := hleads
  -- the live file is where its path says
  have hplace : ((sanitizeRel (str "a")).toOption.map fun r =>
      ((Machine.start sharingFabric).fs.resolve false (r.under [str "w"])).toOption) =
        some (some [str "w", str "a"]) := by decide +kernel
  rw [hrel] at hplace
  have hlive : ((Machine.start sharingFabric).fs.resolve false (r.under [str "w"])).toOption =
      some [str "w", str "a"] := Option.some.inj hplace
  rw [hres] at hlive
  have hlen := congrArg List.length (Option.some.inj hlive)
  simp [Store.objectPath, Store.fanPath, Store.fabricDir] at hlen

end Purge

end Respawn
