import Mathlib.Logic.Relation
import Respawn.Sync

/-!
# Where a walk leads

The walk of a pull is followed on the state the pull starts in: a `Position`
holds the manifests stored so far, and one `Step` leads from it along the
manifest that the peer delivers.  `walk_after` says where a walk ends
(`Outcome`) and that what it adds to the store is what the positions say.
-/

namespace Respawn

open ByteStr FileTree StateLogic

namespace Sync

variable (X : Crates) (st : Store)

/-- A node that is not among the blobs of this kind. -/
def Elsewhere (kind : Name) (q : Path) : Prop := ¬ st.fabricDir ++ [kind] <+: q

/-! ## Blobs gained -/

/-- From `fs` to `fs'` the store gained these blobs of one kind; otherwise only
missing directories above such blobs were made. -/
structure Gained (kind : Name) (new : List (Hash × Bytes)) (fs fs' : Fs) : Prop where
  real : st.Real fs'
  stored : ∀ e ∈ new, ∃ d, fs'.get (st.fanPath kind e.1) = some (.file d) ∧ d.bytes = e.2
  frame : ∀ q, (∀ e ∈ new, q ≠ st.fanPath kind e.1) → fs'.get q = fs.get q ∨
    (fs.get q = none ∧ fs'.get q = some .dir ∧ ∃ h, q <+: (st.fanPath kind h).dropLast)

/-- The same, with a temporary file left over perhaps. -/
structure Added (kind : Name) (new : List (Hash × Bytes)) (fs fs' : Fs) : Prop where
  real : st.Real fs'
  stored : ∀ e ∈ new, ∃ d, fs'.get (st.fanPath kind e.1) = some (.file d) ∧ d.bytes = e.2
  old : ∀ h, (∀ e ∈ new, h ≠ e.1) → fs'.get (st.fanPath kind h) = fs.get (st.fanPath kind h)
  outside : ∀ q, Elsewhere st kind q → fs'.get q = fs.get q

variable {st} {kind : Name}

/-- A blob does not lie above another. -/
theorem fanPath_not_above {g h : Hash} :
    ¬ st.fanPath kind g <+: (st.fanPath kind h).dropLast := by
  intro hpre
  have hle := hpre.length_le
  rw [Store.fanPath_dropLast] at hle
  simp [Store.fanPath] at hle

/-- What is missing above a blob is among its kind. -/
theorem above_fanPath {fs : Fs} {h : Hash} {q : Path} (hreal : st.Real fs)
    (hnone : fs.get q = none) (hq : q <+: (st.fanPath kind h).dropLast) :
    st.fabricDir ++ [kind] <+: q := by
  rw [Store.fanPath_dropLast] at hq
  rcases List.prefix_or_prefix_of_prefix hq (List.prefix_append st.fabricDir _) with
    habove | hbelow
  · rw [fs.dir_of_prefix hreal.dir habove] at hnone
    cases hnone
  · obtain ⟨tail, rfl⟩ := hbelow
    cases tail with
    | nil =>
        rw [List.append_nil, hreal.dir] at hnone
        cases hnone
    | cons n tail =>
        have htail := (List.prefix_append_right_inj st.fabricDir).mp hq
        rw [(List.cons_prefix_cons.mp htail).1]
        exact ⟨tail, by simp⟩

/-- A part of the fabric other than the blobs of this kind. -/
theorem elsewhere_of_above {n : Name} {q : Path} (hn : n ≠ kind)
    (hq : st.fabricDir ++ [n] <+: q) : Elsewhere st kind q := by
  intro hpre
  rcases List.prefix_or_prefix_of_prefix hpre hq with h | h
  · exact hn (List.singleton_inj.mp (List.append_cancel_left (h.eq_of_length (by simp)))).symm
  · exact hn (List.singleton_inj.mp (List.append_cancel_left (h.eq_of_length (by simp))))

theorem Elsewhere.above {p q : Path} (h : Elsewhere st kind q) (hp : p <+: q) :
    Elsewhere st kind p :=
  fun hpre => h (hpre.trans hp)

theorem kind_prefix_fanPath (h : Hash) :
    st.fabricDir ++ [kind] <+: st.fanPath kind h :=
  ⟨[(hashHex h).take 2, (hashHex h).drop 2], by simp [Store.fanPath]⟩

namespace Gained

variable {new : List (Hash × Bytes)} {fs fs' : Fs}

theorem refl (hreal : st.Real fs) : Gained st kind [] fs fs :=
  ⟨hreal, by simp, fun _ _ => Or.inl rfl⟩

/-- A blob that was not gained is what it was. -/
theorem other (h : Gained st kind new fs fs') {g : Hash} (hg : ∀ e ∈ new, g ≠ e.1) :
    fs'.get (st.fanPath kind g) = fs.get (st.fanPath kind g) := by
  rcases h.frame (st.fanPath kind g) fun e he heq =>
    hg e he (Store.fanPath_injective heq) with heq | ⟨_, _, k, hpre⟩
  · exact heq
  · exact absurd hpre fanPath_not_above

/-- What was gained was added. -/
theorem added (hreal : st.Real fs) (h : Gained st kind new fs fs') : Added st kind new fs fs' := by
  refine ⟨h.real, h.stored, fun g hg => h.other hg, ?_⟩
  intro q hq
  rcases h.frame q fun e _ heq => hq (heq ▸ kind_prefix_fanPath e.1) with
    heq | ⟨hnone, _, k, hpre⟩
  · exact heq
  · exact absurd (above_fanPath hreal hnone hpre) hq

/-- Storing one more blob. -/
theorem cons {m m' : Machine} {h : Hash} {data : Bytes} (hgained : Gained st kind new fs m.fs)
    (habsent : m.fs.get (st.fanPath kind h) = none)
    (hwrote : Wrote (st.fanPath kind h) data m m') :
    Gained st kind ((h, data) :: new) fs m'.fs := by
  refine ⟨hgained.real.wrote (Store.fabricDir_prefix_fanPath _ _) (Store.fanPath_ne_nil _ _)
    hwrote, ?_, ?_⟩
  · intro e he
    rcases List.mem_cons.mp he with rfl | he
    · exact hwrote.file
    · obtain ⟨d, hd, hbytes⟩ := hgained.stored e he
      have hne : st.fanPath kind e.1 ≠ st.fanPath kind h := by
        intro heq
        rw [← heq, hd] at habsent
        cases habsent
      rcases hwrote.frame _ hne with heq | ⟨_, hnone, _⟩
      · exact ⟨d, heq ▸ hd, hbytes⟩
      · rw [hd] at hnone
        cases hnone
  · intro q hq
    have hold := hgained.frame q fun e he => hq e (List.mem_cons_of_mem _ he)
    rcases hwrote.frame q (hq _ List.mem_cons_self) with heq | ⟨hpre, hnone, hdir⟩
    · rw [heq]
      exact hold
    · rcases hold with heq | ⟨hmissing, hdir', _⟩
      · exact Or.inr ⟨heq ▸ hnone, hdir, h, hpre⟩
      · rw [hdir'] at hnone
        cases hnone

/-- A write of a blob that failed adds none. -/
theorem missed {m m' : Machine} {h : Hash} {tag : Bytes} (hreal : st.Real fs)
    (hgained : Gained st kind new fs m.fs) (hmissed : Missed tag (st.fanPath kind h) m m') :
    Added st kind new fs m'.fs := by
  have hadded := hgained.added hreal
  have hkept : ∀ q, (∀ n, q ≠ (st.fanPath kind h).dropLast ++ [tmpName m.pid n tag]) →
      (m.fs.get q ≠ none ∨ ¬ q <+: (st.fanPath kind h).dropLast) →
      m'.fs.get q = m.fs.get q := by
    intro q htmp hq
    rcases hmissed.frame q with (heq | ⟨hpre, hnone, _⟩) | ⟨⟨n, hn⟩, _⟩
    · exact heq
    · rcases hq with hq | hq
      · exact absurd hnone hq
      · exact absurd hpre hq
    · exact absurd hn (htmp n)
  refine ⟨hgained.real.missed (Store.fabricDir_prefix_fanPath _ _) hmissed, ?_, ?_, ?_⟩
  · intro e he
    obtain ⟨d, hd, hbytes⟩ := hgained.stored e he
    refine ⟨d, ?_, hbytes⟩
    rw [hkept (st.fanPath kind e.1) (fun n => Store.fanPath_ne_tmp)
      (Or.inr fanPath_not_above), hd]
  · intro g hg
    rw [hkept (st.fanPath kind g) (fun n => Store.fanPath_ne_tmp)
      (Or.inr fanPath_not_above), hgained.other hg]
  · intro q hq
    rw [hkept q ?_ ?_, hadded.outside q hq]
    · intro n heq
      apply hq
      rw [heq]
      rw [Store.fanPath_dropLast]
      exact ⟨[(hashHex h).take 2, tmpName m.pid n tag], by simp⟩
    · by_cases hnone : m.fs.get q = none
      · exact Or.inr fun hpre => hq (above_fanPath hgained.real hnone hpre)
      · exact Or.inl hnone

/-- For a blob that was not gained its place is as vacant as it was. -/
theorem vacant_iff {pid n : Nat} {h : Hash} (hgained : Gained st kind new fs fs')
    (hnew : ∀ e ∈ new, h ≠ e.1) :
    Store.Vacant fs' pid n (st.fanPath kind h) ↔ Store.Vacant fs pid n (st.fanPath kind h) := by
  have hlong : ∀ q : Path, (st.fanPath kind h).length ≤ q.length → ∀ g,
      ¬ q <+: (st.fanPath kind g).dropLast := by
    intro q hq g hpre
    have hle := hpre.length_le
    rw [Store.fanPath_dropLast] at hle
    simp [Store.fanPath] at hq hle
    omega
  have htmp : fs'.get ((st.fanPath kind h).dropLast ++
      [tmpName pid n (Store.fileTag (st.fanPath kind h))]) =
      fs.get ((st.fanPath kind h).dropLast ++
        [tmpName pid n (Store.fileTag (st.fanPath kind h))]) := by
    rcases hgained.frame _ fun e _ heq => Store.fanPath_ne_tmp heq.symm with
      heq | ⟨_, _, g, hpre⟩
    · exact heq
    · refine absurd hpre (hlong _ ?_ g)
      have hne : st.fanPath kind h ≠ [] := Store.fanPath_ne_nil _ _
      have hpos := List.length_pos_iff.mpr hne
      rw [List.length_append, List.length_dropLast, List.length_singleton]
      omega
  have hway : ∀ pre, pre <+: (st.fanPath kind h).dropLast →
      ((fs'.get pre = some .dir ∨ fs'.get pre = none) ↔
        (fs.get pre = some .dir ∨ fs.get pre = none)) := by
    intro pre hpre
    rcases hgained.frame pre fun e _ heq => fanPath_not_above (heq ▸ hpre) with
      heq | ⟨hnone, hdir, _⟩
    · rw [heq]
    · simp [hnone, hdir]
  constructor
  · intro hv
    exact ⟨hgained.other hnew ▸ hv.absent, fun pre hpre => (hway pre hpre).mp (hv.way pre hpre),
      htmp ▸ hv.tmp⟩
  · intro hv
    exact ⟨(hgained.other hnew).trans hv.absent,
      fun pre hpre => (hway pre hpre).mpr (hv.way pre hpre), htmp.trans hv.tmp⟩

/-- The blobs there are now are the old ones and those gained. -/
theorem exists_iff (hgained : Gained st kind new fs fs') (hreal : st.Real fs)
    (hkind : ValidName kind) (h : Hash) :
    fs'.exists (st.fanPath kind h) = true ↔
      fs.exists (st.fanPath kind h) = true ∨ h ∈ new.map Prod.fst := by
  have hin : st.fabricDir <+: st.fanPath kind h :=
    (Store.fabricDir_prefix_fanPath _ _).trans (List.dropLast_prefix _)
  have hnames : ∀ n ∈ st.fanPath kind h, ValidName n := Store.fanPath_names hreal hkind h
  rw [hgained.real.exists_iff hin hnames, hreal.exists_iff hin hnames]
  by_cases hmem : h ∈ new.map Prod.fst
  · obtain ⟨e, he, rfl⟩ := List.mem_map.mp hmem
    obtain ⟨d, hd, _⟩ := hgained.stored e he
    simp [hd, hmem]
  · rw [hgained.other (g := h) fun e he heq => hmem (heq ▸ List.mem_map_of_mem he)]
    simp [hmem]

end Gained

/-- The machine that has stored these blobs since `m₀`. -/
structure At (st : Store) (kind : Name) (m₀ : Machine) (new : List (Hash × Bytes)) (m : Machine) :
    Prop where
  gained : Gained st kind new m₀.fs m.fs
  pid : m.pid = m₀.pid
  counter : m.tmpCounter = m₀.tmpCounter + new.length

theorem At.refl {m : Machine} (hreal : st.Real m.fs) : At st kind m [] m :=
  ⟨Gained.refl hreal, rfl, rfl⟩

/-- **Storing one more blob**: it is stored where there is room for it. -/
theorem At.putBlob {m₀ m : Machine} {new : List (Hash × Bytes)} {h : Hash} {stored : Bytes}
    (hreal : st.Real m₀.fs) (hat : At st kind m₀ new m) (hkind : ValidName kind)
    (hnew : ¬ (m₀.fs.exists (st.fanPath kind h) = true ∨ h ∈ new.map Prod.fst)) :
    After (Store.putBlob (st.fanPath kind h) stored m)
      (fun _ m' => Store.Vacant m₀.fs m₀.pid (m₀.tmpCounter + new.length) (st.fanPath kind h) ∧
        At st kind m₀ ((h, stored) :: new) m')
      (fun _ m' => ¬ Store.Vacant m₀.fs m₀.pid (m₀.tmpCounter + new.length) (st.fanPath kind h) ∧
        Added st kind new m₀.fs m'.fs) := by
  have hpath : st.fabricDir <+: (st.fanPath kind h).dropLast := Store.fabricDir_prefix_fanPath _ _
  have hne : st.fanPath kind h ≠ [] := Store.fanPath_ne_nil _ _
  have hnames : ∀ n ∈ st.fanPath kind h, ValidName n :=
    Store.fanPath_names hat.gained.real hkind h
  have hother : ∀ e ∈ new, h ≠ e.1 := fun e he heq =>
    hnew (Or.inr (heq ▸ List.mem_map_of_mem he))
  have habsent : m.fs.get (st.fanPath kind h) = none := by
    rw [hat.gained.other hother]
    by_contra hsome
    exact hnew (Or.inl ((hreal.exists_iff (hpath.trans (List.dropLast_prefix _)) hnames).mpr hsome))
  have hvacant : Store.Vacant m.fs m.pid m.tmpCounter (st.fanPath kind h) ↔
      Store.Vacant m₀.fs m₀.pid (m₀.tmpCounter + new.length) (st.fanPath kind h) := by
    rw [hat.pid, hat.counter]
    exact hat.gained.vacant_iff hother
  rw [← hvacant]
  by_cases hroom : Store.Vacant m.fs m.pid m.tmpCounter (st.fanPath kind h)
  · obtain ⟨m', hput, hwrote, hcounter⟩ : ∃ m', Store.putBlob (st.fanPath kind h) stored m =
        .ok () m' ∧ _ := Store.putBlob_of_vacant hat.gained.real hpath hne hnames hroom
    rw [hput]
    refine ⟨hroom, hat.gained.cons habsent hwrote, hwrote.ran.pid.trans hat.pid, ?_⟩
    rw [hcounter, hat.counter, List.length_cons]
    omega
  · have hput : After (Store.putBlob (st.fanPath kind h) stored m) _ _ :=
      Store.putBlob_after hat.gained.real hpath hne hnames
    cases hcase : Store.putBlob (st.fanPath kind h) stored m with
    | ok u m' =>
        exact absurd (Store.vacant_of_putBlob hat.gained.real hpath hnames habsent hcase) hroom
    | error e m' =>
        rw [hcase] at hput
        exact ⟨hroom, hat.gained.missed hreal hput.2⟩

/-! ## Positions -/

variable (st)

/-- The peer answers the request for `h` with bytes of that hash. -/
structure Delivers (peer : Peer) (sent : List Bytes) (req : Bytes) (h : Hash) (data : Bytes) :
    Prop where
  answer : ∃ resp, exchange peer sent req = .ok resp ∧ framePayload resp = .ok data
  nonempty : data ≠ []
  hash : X.blake3 data = h

/-- Where a walk stands: the manifests it stored, last first, what it keeps
track of, and the manifest it comes to. -/
structure Position where
  stored : List (Hash × Bytes)
  walked : Walked
  cur : Hash

/-- What the walk keeps track of after a manifest. -/
def Walked.add (w : Walked) (cur : Hash) (mf : Manifest) : Walked where
  sent := w.sent ++ [manifestRequest cur]
  needed := w.needed ++ mf.files.flatMap FileEntry.chunks
  fetched := w.fetched + 1

/-- The walk of a pull whose peer has the HEAD `h` starts here. -/
def Position.start (h : Hash) : Position := ⟨[], ⟨[[OP_GET_HEAD]], [], 0⟩, h⟩

/-- After the manifest at `p` the walk comes to `h`. -/
def Position.next (p : Position) (data : Bytes) (mf : Manifest) (h : Hash) : Position :=
  ⟨(p.cur, data) :: p.stored, p.walked.add p.cur mf, h⟩

/-- The manifest at `p` is in the store when the walk comes to it. -/
def Position.Present (m₀ : Machine) (p : Position) : Prop :=
  st.hasManifest m₀.fs p.cur = true ∨ p.cur ∈ p.stored.map Prod.fst

/-- The manifest at `p` is not here, there is room for it, and the walk may go on. -/
structure Position.Wants (m₀ : Machine) (p : Position) : Prop where
  new : p.cur ∉ p.stored.map Prod.fst
  vacant : Store.Vacant m₀.fs m₀.pid (m₀.tmpCounter + p.stored.length) (st.manifestPath p.cur)
  more : p.stored.length < MAX_MANIFESTS_PER_PULL

/-- The walk stores at `p` the manifest that these bytes are. -/
structure Position.Stores (peer : Peer) (m₀ : Machine) (p : Position) (data : Bytes) : Prop where
  wants : p.Wants st m₀
  delivers : Delivers X peer p.walked.sent (manifestRequest p.cur) p.cur data

/-- The manifest at `p` decodes and leaves the walk within its cap. -/
structure Position.Reads (p : Position) (data : Bytes) (mf : Manifest) : Prop where
  decodes : Manifest.decode X data = .ok mf
  within : (p.walked.add p.cur mf).needed.length ≤ MAX_OBJECTS_PER_PULL

/-- One step of the walk, along a manifest with a parent. -/
def Step (peer : Peer) (m₀ : Machine) (p p' : Position) : Prop :=
  ∃ data mf h, p.Stores X st peer m₀ data ∧ p.Reads X data mf ∧ mf.parent = some h ∧
    p' = p.next data mf h

/-- How a walk ends at `p`: with the result it returns, if any, and the
manifests it has stored. -/
inductive Outcome (peer : Peer) (m₀ : Machine) (p : Position) :
    Option Walked → List (Hash × Bytes) → Prop
  | met (h : p.Present st m₀) : Outcome peer m₀ p (some p.walked) p.stored
  | root {data : Bytes} {mf : Manifest} (hstores : p.Stores X st peer m₀ data)
      (hreads : p.Reads X data mf) (hroot : mf.parent = none) :
      Outcome peer m₀ p (some (p.walked.add p.cur mf)) ((p.cur, data) :: p.stored)
  | lost (hnew : ¬ p.Present st m₀) (h : ∀ data, ¬ p.Stores X st peer m₀ data) :
      Outcome peer m₀ p none p.stored
  | unreadable {data : Bytes} (hstores : p.Stores X st peer m₀ data)
      (h : ∀ mf, Manifest.decode X data ≠ .ok mf) :
      Outcome peer m₀ p none ((p.cur, data) :: p.stored)
  | large {data : Bytes} {mf : Manifest} (hstores : p.Stores X st peer m₀ data)
      (hdecode : Manifest.decode X data = .ok mf) (h : ¬ p.Reads X data mf) :
      Outcome peer m₀ p none ((p.cur, data) :: p.stored)

variable {X st}

/-- A peer delivers one answer to a request. -/
theorem Delivers.unique {peer : Peer} {sent : List Bytes} {req : Bytes} {g : Hash}
    {data data' : Bytes} (h : Delivers X peer sent req g data)
    (h' : Delivers X peer sent req g data') : data = data' := by
  obtain ⟨resp, hresp, hdata⟩ := h.answer
  obtain ⟨resp', hresp', hdata'⟩ := h'.answer
  cases hresp.symm.trans hresp'
  exact Except.ok.inj (hdata.symm.trans hdata')

/-- A walk has one way to go on. -/
theorem step_unique {peer : Peer} {m₀ : Machine} :
    Relator.RightUnique (Step X st peer m₀) := by
  intro p p₁ p₂ h₁ h₂
  obtain ⟨data₁, mf₁, g₁, hstores₁, hreads₁, hparent₁, rfl⟩ := h₁
  obtain ⟨data₂, mf₂, g₂, hstores₂, hreads₂, hparent₂, rfl⟩ := h₂
  have hdata := hstores₁.delivers.unique hstores₂.delivers
  subst hdata
  have hmf := Except.ok.inj (hreads₁.decodes.symm.trans hreads₂.decodes)
  subst hmf
  have hg := Option.some.inj (hparent₁.symm.trans hparent₂)
  rw [hg]

/-- What is stored now was not there before. -/
theorem Position.Stores.not_present {peer : Peer} {m₀ : Machine} {p : Position} {data : Bytes}
    (hreal : st.Real m₀.fs) (h : p.Stores X st peer m₀ data) : ¬ p.Present st m₀ := by
  intro hpresent
  rcases hpresent with hhas | hmem
  · exact (hreal.exists_iff ((Store.fabricDir_prefix_fanPath _ _).trans (List.dropLast_prefix _))
      (Store.fanPath_names hreal (by decide) _)).mp hhas h.wants.vacant.absent
  · exact h.wants.new hmem

/-- A walk that has ended takes no step. -/
theorem Outcome.no_step {peer : Peer} {m₀ : Machine} {p p' : Position} {w : Option Walked}
    {stored : List (Hash × Bytes)} (hreal : st.Real m₀.fs)
    (h : Outcome X st peer m₀ p w stored) : ¬ Step X st peer m₀ p p' := by
  intro hstep
  obtain ⟨data, mf, g, hstores, hreads, hparent, _⟩ := hstep
  cases h with
  | met hpresent => exact hstores.not_present hreal hpresent
  | root hstores' hreads' hroot =>
      have hdata := hstores.delivers.unique hstores'.delivers
      subst hdata
      have hmf := Except.ok.inj (hreads.decodes.symm.trans hreads'.decodes)
      subst hmf
      rw [hparent] at hroot
      cases hroot
  | lost _ hnone => exact hnone data hstores
  | unreadable hstores' hbad =>
      have hdata := hstores.delivers.unique hstores'.delivers
      exact hbad mf (hdata ▸ hreads.decodes)
  | large hstores' hdecode hbad =>
      have hdata := hstores.delivers.unique hstores'.delivers
      subst hdata
      have hmf := Except.ok.inj (hreads.decodes.symm.trans hdecode)
      exact hbad (hmf ▸ hreads)

/-! ## Walking -/

section Walking

variable {peer : Peer} {m₀ m : Machine}

/-- The manifests there are those there were and those that were stored. -/
theorem At.hasManifest_iff {stored : List (Hash × Bytes)} {h : Hash} (hreal : st.Real m₀.fs)
    (hat : At st (str "manifests") m₀ stored m) :
    st.hasManifest m.fs h = true ↔
      st.hasManifest m₀.fs h = true ∨ h ∈ stored.map Prod.fst :=
  hat.gained.exists_iff hreal (by decide) h

/-- **One manifest of a walk**: it is stored and decodes, or it is stored and does
not, or the peer did not deliver it or there is no room for it. -/
theorem fetchManifest_after {p : Position} (hreal : st.Real m₀.fs)
    (hat : At st (str "manifests") m₀ p.stored m) (hnew : ¬ p.Present st m₀)
    (hmore : p.stored.length < MAX_MANIFESTS_PER_PULL) :
    After (fetchManifest X st peer p.walked.sent p.cur m)
      (fun mf m' => ∃ data, p.Stores X st peer m₀ data ∧ Manifest.decode X data = .ok mf ∧
        At st (str "manifests") m₀ ((p.cur, data) :: p.stored) m')
      (fun _ m' => (Added st (str "manifests") p.stored m₀.fs m'.fs ∧
          ∀ data, ¬ p.Stores X st peer m₀ data) ∨
        ∃ data, p.Stores X st peer m₀ data ∧ (∀ mf, Manifest.decode X data ≠ .ok mf) ∧
          Added st (str "manifests") ((p.cur, data) :: p.stored) m₀.fs m'.fs) := by
  have hadded := hat.gained.added hreal
  unfold fetchManifest
  apply after_look_bind
  · intro resp hresp
    apply after_look_bind
    · intro data hdata
      have hunique : ∀ data', p.Stores X st peer m₀ data' → data' = data := by
        intro data' hstores
        obtain ⟨resp', hresp', hdata'⟩ := hstores.delivers.answer
        cases hresp.symm.trans hresp'
        exact Except.ok.inj (hdata'.symm.trans hdata)
      split
      case isTrue hempty =>
        refine Or.inl ⟨hadded, fun data' hstores => ?_⟩
        exact hstores.delivers.nonempty (hunique data' hstores ▸ hempty)
      case isFalse hfull =>
        by_cases hhash : X.blake3 data = p.cur
        · have hdelivers : Delivers X peer p.walked.sent (manifestRequest p.cur) p.cur data :=
            ⟨⟨resp, hresp, hdata⟩, hfull, hhash⟩
          apply After.bind (P := fun _ m' => p.Stores X st peer m₀ data ∧
            At st (str "manifests") m₀ ((p.cur, data) :: p.stored) m')
          · unfold Store.putManifestAs
            rw [if_neg (not_not.mpr hhash)]
            unfold Store.putManifest
            rw [hhash]
            have hput : After (Store.putBlob (st.manifestPath p.cur) data m) _ _ :=
              hat.putBlob hreal (by decide) hnew
            cases hcase : Store.putBlob (st.manifestPath p.cur) data m with
            | ok u m' =>
                rw [hcase] at hput
                simp only [bind_apply, hcase]
                exact ⟨⟨⟨fun hmem => hnew (Or.inr hmem), hput.1, hmore⟩, hdelivers⟩, hput.2⟩
            | error e m' =>
                rw [hcase] at hput
                simp only [bind_apply, hcase]
                exact Or.inl ⟨hput.2, fun data' hstores => hput.1 hstores.wants.vacant⟩
          · intro _ m' hput
            obtain ⟨hstores, hat'⟩ := hput
            apply after_look
            · intro mf hmf
              exact ⟨data, hstores, hmf, hat'⟩
            · intro e he
              refine Or.inr ⟨data, hstores, ?_, hat'.gained.added hreal⟩
              intro mf hmf
              rw [he] at hmf
              cases hmf
        · apply After.bind (P := fun _ _ => False)
          · unfold Store.putManifestAs
            rw [if_pos hhash]
            refine Or.inl ⟨hadded, fun data' hstores => ?_⟩
            exact hhash (hunique data' hstores ▸ hstores.delivers.hash)
          · intro _ _ hfalse
            exact hfalse.elim
    · intro e he
      refine Or.inl ⟨hadded, fun data' hstores => ?_⟩
      obtain ⟨resp', hresp', hdata'⟩ := hstores.delivers.answer
      cases hresp.symm.trans hresp'
      rw [he] at hdata'
      cases hdata'
  · intro e he
    refine Or.inl ⟨hadded, fun data' hstores => ?_⟩
    obtain ⟨resp', hresp', _⟩ := hstores.delivers.answer
    rw [he] at hresp'
    cases hresp'

/-- **The walk ends where its steps lead**, and the store gained what it stored
on the way. -/
theorem walk_after {fuel : Nat} {p : Position} (hreal : st.Real m₀.fs)
    (hat : At st (str "manifests") m₀ p.stored m)
    (hfuel : fuel + p.stored.length = MAX_MANIFESTS_PER_PULL) :
    After (walk X st peer fuel (p.stored.map Prod.fst) p.walked p.cur m)
      (fun w m' => ∃ p' stored, Relation.ReflTransGen (Step X st peer m₀) p p' ∧
        Outcome X st peer m₀ p' (some w) stored ∧
        At st (str "manifests") m₀ stored m')
      (fun _ m' => ∃ p' stored, Relation.ReflTransGen (Step X st peer m₀) p p' ∧
        Outcome X st peer m₀ p' none stored ∧ Added st (str "manifests") stored m₀.fs m'.fs) := by
  have hpresent := hat.hasManifest_iff (h := p.cur) hreal
  have hadded := hat.gained.added hreal
  induction fuel generalizing p m with
  | zero =>
      unfold walk
      rw [bind_apply, look_get]
      simp only
      split
      case isTrue hhas =>
        exact ⟨p, p.stored, Relation.ReflTransGen.refl, Outcome.met (hpresent.mp hhas), hat⟩
      case isFalse hhas =>
        have hnew : ¬ p.Present st m₀ := fun h => hhas (hpresent.mpr h)
        rw [if_neg fun hmem => hnew (Or.inr hmem)]
        refine ⟨p, p.stored, Relation.ReflTransGen.refl, Outcome.lost hnew ?_, hadded⟩
        intro data hstores
        have hmore := hstores.wants.more
        omega
  | succ fuel ih =>
      unfold walk
      rw [bind_apply, look_get]
      simp only
      split
      case isTrue hhas =>
        exact ⟨p, p.stored, Relation.ReflTransGen.refl, Outcome.met (hpresent.mp hhas), hat⟩
      case isFalse hhas =>
        have hnew : ¬ p.Present st m₀ := fun h => hhas (hpresent.mpr h)
        rw [if_neg fun hmem => hnew (Or.inr hmem)]
        apply After.bind ((fetchManifest_after hreal hat hnew (by omega)).mono (fun _ _ h => h) ?_)
        · intro mf m' hgot
          obtain ⟨data, hstores, hdecode, hat'⟩ := hgot
          have hadded' := hat'.gained.added hreal
          split
          case isTrue hlarge =>
            refine ⟨p, _, Relation.ReflTransGen.refl, Outcome.large hstores hdecode ?_, hadded'⟩
            intro hreads
            exact absurd hreads.within (by simpa [Walked.add] using hlarge)
          case isFalse hsmall =>
            have hreads : p.Reads X data mf := ⟨hdecode, not_lt.mp hsmall⟩
            cases hparent : mf.parent with
            | none =>
                exact ⟨p, _, Relation.ReflTransGen.refl, Outcome.root hstores hreads hparent,
                  hat'⟩
            | some g =>
                have hstep : Step X st peer m₀ p (p.next data mf g) :=
                  ⟨data, mf, g, hstores, hreads, hparent, rfl⟩
                have hrest := ih (p := p.next data mf g) (m := m') hat'
                  (by simp only [Position.next, List.length_cons]; omega)
                  (hat'.hasManifest_iff hreal) hadded'
                apply hrest.mono
                · intro w m'' hend
                  obtain ⟨p', stored, hsteps, hout⟩ := hend
                  exact ⟨p', stored, Relation.ReflTransGen.head hstep hsteps, hout⟩
                · intro e m'' hend
                  obtain ⟨p', stored, hsteps, hout⟩ := hend
                  exact ⟨p', stored, Relation.ReflTransGen.head hstep hsteps, hout⟩
        · intro e m' hstop
          rcases hstop with ⟨hadd, hnone⟩ | ⟨data, hstores, hbad, hadd⟩
          · exact ⟨p, _, Relation.ReflTransGen.refl, Outcome.lost hnew hnone, hadd⟩
          · exact ⟨p, _, Relation.ReflTransGen.refl, Outcome.unreadable hstores hbad, hadd⟩

end Walking

end Sync

end Respawn
