import Respawn.Contents
import Respawn.Fetch

/-!
# What a pull admits

A pull stores a manifest before it decodes it.  So every manifest of the store
still loads after a pull exactly when the peer does not deliver, along the
chain from its HEAD, bytes that hash to the name asked for and do not decode
(`ServesUnreadable`).
-/

namespace Respawn

open ByteStr FileTree StateLogic

variable (X : Crates) (st : Store)

/-- Every manifest of the store loads. -/
def AllLoad (fs : Fs) : Prop :=
  ∀ h, st.hasManifest fs h = true → ∃ mf, Snapshot.load X st fs h = .ok mf

variable {X st}

theorem hasManifest_iff {fs : Fs} (hreal : st.Real fs) (h : Hash) :
    st.hasManifest fs h = true ↔ fs.get (st.manifestPath h) ≠ none :=
  hreal.exists_iff ((Store.fabricDir_prefix_fanPath _ _).trans (List.dropLast_prefix _))
    (Store.fanPath_names hreal (by decide) h)

/-- Loading decodes the manifest file. -/
theorem load_eq_ok {fs : Fs} {h : Hash} {mf : Manifest} (hreal : st.Real fs) :
    Snapshot.load X st fs h = .ok mf ↔
      ∃ d, fs.get (st.manifestPath h) = some (.file d) ∧ Manifest.decode X d.bytes = .ok mf := by
  have hread : ∀ data, fs.read (st.manifestPath h) = .ok data ↔
      ∃ d, fs.get (st.manifestPath h) = some (.file d) ∧ d.bytes = data := fun data =>
    hreal.read_eq_ok ((Store.fabricDir_prefix_fanPath _ _).trans (List.dropLast_prefix _))
      (Store.fanPath_names hreal (by decide) h)
  rw [Snapshot.load_eq_decode]
  constructor
  · rintro ⟨data, hdata, hdecode⟩
    obtain ⟨d, hd, rfl⟩ := (hread data).mp hdata
    exact ⟨d, hd, hdecode⟩
  · rintro ⟨d, hd, hdecode⟩
    exact ⟨d.bytes, (hread _).mpr ⟨d, hd, rfl⟩, hdecode⟩

/-- On a sound store every snapshot that loads is the one its id names. -/
theorem Sound.loadsNamed {fs : Fs} (h : Sound X st fs) (id : Hash) :
    Snapshot.LoadsNamed X st fs id := by
  apply Snapshot.loadsNamed_of_genuine
  intro data hread
  obtain ⟨d, hd, rfl⟩ := (h.real.read_eq_ok
    ((Store.fabricDir_prefix_fanPath _ _).trans (List.dropLast_prefix _))
    (Store.fanPath_names h.real (by decide) id)).mp hread
  exact Or.inl ((h.addressed _ d hd).manifest id rfl)

namespace Sync

/-- From `fs` to `fs'` the manifests of the store are the old ones and these. -/
structure Admitted (st : Store) (new : List (Hash × Bytes)) (fs fs' : Fs) : Prop where
  real : st.Real fs'
  stored : ∀ e ∈ new, ∃ d, fs'.get (st.manifestPath e.1) = some (.file d) ∧ d.bytes = e.2
  old : ∀ h, (∀ e ∈ new, h ≠ e.1) → fs'.get (st.manifestPath h) = fs.get (st.manifestPath h)

theorem Added.admitted {new : List (Hash × Bytes)} {fs fs' : Fs}
    (h : Added st (str "manifests") new fs fs') :
    Admitted st new fs fs' :=
  ⟨h.real, h.stored, h.old⟩

/-- What is admitted stays while other things are touched. -/
theorem Admitted.trans {new : List (Hash × Bytes)} {fs fs' fs'' : Fs}
    (h : Admitted st new fs fs')
    (h' : st.Touched (Elsewhere st (str "manifests")) fs' fs'') :
    Admitted st new fs fs'' := by
  have hsame : ∀ g, fs''.get (st.manifestPath g) = fs'.get (st.manifestPath g) := fun g =>
    h'.frame _ (not_not.mpr (kind_prefix_fanPath g))
  refine ⟨h'.real, ?_, ?_⟩
  · intro e he
    rw [hsame]
    exact h.stored e he
  · intro g hg
    rw [hsame]
    exact h.old g hg

/-- A store in which everything loads stays one when what it admits decodes. -/
theorem Admitted.allLoad_iff {new : List (Hash × Bytes)} {fs fs' : Fs} (hreal : st.Real fs)
    (h : Admitted st new fs fs') (hload : AllLoad X st fs) :
    AllLoad X st fs' ↔ ∀ e ∈ new, ∃ mf, Manifest.decode X e.2 = .ok mf := by
  constructor
  · intro hall e he
    obtain ⟨d, hd, hbytes⟩ := h.stored e he
    obtain ⟨mf, hmf⟩ := hall e.1 ((hasManifest_iff h.real _).mpr (by simp [hd]))
    obtain ⟨d', hd', hdecode⟩ := (load_eq_ok h.real).mp hmf
    cases hd.symm.trans hd'
    exact ⟨mf, hbytes ▸ hdecode⟩
  · intro hall g hg
    by_cases hnew : ∃ e ∈ new, g = e.1
    · obtain ⟨e, he, rfl⟩ := hnew
      obtain ⟨d, hd, hbytes⟩ := h.stored e he
      obtain ⟨mf, hmf⟩ := hall e he
      exact ⟨mf, (load_eq_ok h.real).mpr ⟨d, hd, hbytes ▸ hmf⟩⟩
    · have hold := h.old g fun e he heq => hnew ⟨e, he, heq⟩
      rw [hasManifest_iff h.real, hold] at hg
      obtain ⟨mf, hmf⟩ := hload g ((hasManifest_iff hreal g).mpr hg)
      refine ⟨mf, (load_eq_ok h.real).mpr ?_⟩
      rw [hold]
      exact (load_eq_ok hreal).mp hmf

/-! ## Where the walk of a pull goes -/

variable (X st)

/-- The peer says that its HEAD is `h`. -/
def Offers (peer : Peer) (h : Hash) : Prop := exchange peer [] [OP_GET_HEAD] = .ok (1 :: h.val)

/-- The walk of a pull comes to `p`. -/
def Comes (peer : Peer) (m₀ : Machine) (h : Hash) (p : Position) : Prop :=
  Relation.ReflTransGen (Step X st peer m₀) (Position.start h) p

/-- The walk of a pull ends at `p` in this way. -/
structure Ends (peer : Peer) (m₀ : Machine) (h : Hash) (w : Option Walked)
    (stored : List (Hash × Bytes)) (p : Position) : Prop where
  comes : Comes X st peer m₀ h p
  outcome : Outcome X st peer m₀ p w stored

variable {X st}

section Comes

variable {peer : Peer} {m₀ : Machine} {h : Hash} {p : Position}

/-- What a walk stored on its way decodes. -/
theorem Comes.decodes (hcomes : Comes X st peer m₀ h p) :
    ∀ e ∈ p.stored, ∃ mf, Manifest.decode X e.2 = .ok mf := by
  induction hcomes with
  | refl => simp [Position.start]
  | tail _ hstep ih =>
      obtain ⟨data, mf, g, _, hreads, _, rfl⟩ := hstep
      intro e he
      rcases List.mem_cons.mp he with rfl | he
      · exact ⟨mf, hreads.decodes⟩
      · exact ih e he

/-- A walk has stored the HEAD it started from, or is still there. -/
theorem Comes.head (hcomes : Comes X st peer m₀ h p) :
    p = Position.start h ∨ h ∈ p.stored.map Prod.fst := by
  induction hcomes with
  | refl => exact Or.inl rfl
  | tail _ hstep ih =>
      obtain ⟨data, mf, g, _, _, _, rfl⟩ := hstep
      rcases ih with rfl | hmem
      · exact Or.inr List.mem_cons_self
      · exact Or.inr (List.mem_cons_of_mem _ hmem)

/-- Of two positions that a walk comes to, an end is the later one. -/
theorem Ends.last {p' : Position} {w : Option Walked} {stored : List (Hash × Bytes)}
    (hreal : st.Real m₀.fs) (hends : Ends X st peer m₀ h w stored p')
    (hcomes : Comes X st peer m₀ h p) : Relation.ReflTransGen (Step X st peer m₀) p p' := by
  rcases Relation.ReflTransGen.total_of_right_unique step_unique hcomes hends.comes with hto | hto
  · exact hto
  · rcases Relation.ReflTransGen.cases_head hto with heq | ⟨_, hstep, _⟩
    · rw [heq]
    · exact absurd hstep (hends.outcome.no_step hreal)

/-- A walk that returns a result has stored only what decodes, and its HEAD is here. -/
theorem Ends.decodes {w : Walked} {stored : List (Hash × Bytes)}
    (hends : Ends X st peer m₀ h (some w) stored p) :
    ∀ e ∈ stored, ∃ mf, Manifest.decode X e.2 = .ok mf := by
  have hpast := hends.comes.decodes
  cases hends.outcome with
  | met _ => exact hpast
  | root hstores hreads _ =>
      intro e he
      rcases List.mem_cons.mp he with rfl | he
      · exact ⟨_, hreads.decodes⟩
      · exact hpast e he

/-- Where the walk ends well the peer's HEAD is here. -/
theorem Ends.head {w : Walked} {stored : List (Hash × Bytes)}
    (hends : Ends X st peer m₀ h (some w) stored p) :
    st.hasManifest m₀.fs h = true ∨ h ∈ stored.map Prod.fst := by
  have hhead := hends.comes.head
  cases hends.outcome with
  | met hpresent =>
      rcases hhead with rfl | hmem
      · exact hpresent
      · exact Or.inr hmem
  | root _ _ _ =>
      rcases hhead with rfl | hmem
      · exact Or.inr List.mem_cons_self
      · exact Or.inr (List.mem_cons_of_mem _ hmem)

end Comes

/-! ## The pull -/

/-- No HEAD comes from this address. -/
def Quiet (addr : Bytes) (peer : Peer) : Prop := ∀ h, ¬ (58 ∈ addr ∧ Offers peer h)

/-- What a pull has done when its walk has ended like this. -/
structure Pulled (X : Crates) (st : Store) (addr : Bytes) (peer : Peer) (m m' : Machine) (h : Hash)
    (w : Option Walked) (stored : List (Hash × Bytes)) (p : Position) : Prop where
  dialled : 58 ∈ addr
  offers : Offers peer h
  ends : Ends X st peer m h w stored p
  admitted : Admitted st stored m.fs m'.fs
  kept : ∀ g, st.hasObject m.fs g = true → st.hasObject m'.fs g = true
  supplied : ∀ w', w = some w' → ∃ b, Supplied X st peer m m' w' stored b

/-- A pull that went through: its conversation came to its end. -/
structure Completed (X : Crates) (st : Store) (addr : Bytes) (peer : Peer) (m m' : Machine)
    (h : Hash) (w : Walked) (stored : List (Hash × Bytes)) (p : Position) (b : Asking) : Prop where
  pulled : Pulled X st addr peer m m' h (some w) stored p
  supplied : Supplied X st peer m m' w stored b
  todo : b.todo = []
  later : b.later = []

/-- The notes on remotes are neither objects nor manifests. -/
theorem remotes_elsewhere {q : Path} (h : AmongRemotes st q) :
    Elsewhere st (str "manifests") q ∧ Elsewhere st (str "objects") q :=
  ⟨elsewhere_of_above (by decide) h, elsewhere_of_above (by decide) h⟩

/-- A pull that succeeds completed the walk and the batches; one that fails did
part of it. -/
theorem pullHead_after {addr : Bytes} {peer : Peer} {m : Machine} {h : Hash}
    (hreal : st.Real m.fs) (haddr : 58 ∈ addr) (hoffers : Offers peer h) :
    After (pullHead X st addr peer h m)
      (fun r m' => r.remoteHead = some h ∧
        ∃ w stored p b, Completed X st addr peer m m' h w stored p b)
      (fun _ m' => ∃ w stored p, Pulled X st addr peer m m' h w stored p) := by
  have hat : At st (str "manifests") m (Position.start h).stored m := At.refl hreal
  unfold pullHead
  apply After.bind (P := fun w m' => ∃ p stored, Ends X st peer m h (some w) stored p ∧
    At st (str "manifests") m stored m')
  · apply (walk_after (p := Position.start h) hreal hat rfl).mono
    · intro w m' hwalk
      obtain ⟨p, stored, hcomes, hout, hat'⟩ := hwalk
      exact ⟨p, stored, ⟨hcomes, hout⟩, hat'⟩
    · intro _ m' hwalk
      obtain ⟨p, stored, hcomes, hout, hadded⟩ := hwalk
      refine ⟨none, stored, p, haddr, hoffers, ⟨hcomes, hout⟩, hadded.admitted, ?_, by simp⟩
      intro g hg
      have hobject : m'.fs.get (st.objectPath g) = m.fs.get (st.objectPath g) :=
        hadded.outside _ (elsewhere_of_above (by decide) (kind_prefix_fanPath g))
      rw [hasObject_iff hadded.real, hobject]
      exact (hasObject_iff hreal g).mp hg
  · intro w m₁ hwalk
    obtain ⟨p, stored, hends, hat₁⟩ := hwalk
    have hreal₁ := hat₁.gained.real
    have hadmitted := (hat₁.gained.added hreal).admitted
    -- what the conversation does, and then the notes on remotes
    have hpulled : ∀ {b : Asking} {m₂ m' : Machine}, Supplied X st peer m m₂ w stored b →
        st.Touched (Elsewhere st (str "manifests")) m₁.fs m₂.fs →
        st.Touched (AmongRemotes st) m₂.fs m'.fs →
        Pulled X st addr peer m m' h (some w) stored p ∧ Supplied X st peer m m' w stored b := by
      intro b m₂ m' hsupplied hfetch hnotes
      have hsupplied' := hsupplied.later hfetch.real
        (hnotes.mono fun _ hq => (remotes_elsewhere hq).2)
      refine ⟨⟨haddr, hoffers, hends, hadmitted.trans (hfetch.trans
        (hnotes.mono fun _ hq => (remotes_elsewhere hq).1)),
        fun g hg => (hsupplied'.objects g).mpr (Or.inl hg), ?_⟩, hsupplied'⟩
      intro w' hw
      cases hw
      exact ⟨b, hsupplied'⟩
    have hspared : ∀ {b : Asking} {m₂ : Machine}, Added st (str "objects") b.got m₁.fs m₂.fs →
        st.Touched (Elsewhere st (str "manifests")) m₁.fs m₂.fs := by
      intro b m₂ hadded
      refine ⟨hadded.real, fun q hq => hadded.outside q ?_⟩
      exact elsewhere_of_above (by decide) (not_not.mp hq)
    apply After.bind (P := fun _ m₂ => ∃ b, Supplied X st peer m m₂ w stored b ∧
      b.todo = [] ∧ b.later = [] ∧ st.Touched (Elsewhere st (str "manifests")) m₁.fs m₂.fs)
    · apply (fetchBatches_after (a := Asking.start w) hreal₁ (At.refl hreal₁) rfl rfl rfl).mono
      · intro f m₂ hfetch
        obtain ⟨b, hasks, htodo, hlater, hadded⟩ := hfetch
        have hstuck : ∀ c, ¬ AskStep X st peer m₁.fs m₁.pid m₁.tmpCounter b c := by
          intro c hstep
          cases hstep with
          | ask _ hmore _ _ => cases hlater.symm.trans hmore
          | skip hmore _ => cases htodo.symm.trans hmore
          | get hmore _ => cases htodo.symm.trans hmore
        exact ⟨b, supplied_of_fetch hreal hat₁ hasks hstuck hadded, htodo, hlater, hspared hadded⟩
      · intro _ m₂ hfetch
        obtain ⟨b, hasks, hstuck, _, hadded⟩ := hfetch
        have hsupplied := supplied_of_fetch hreal hat₁ hasks hstuck hadded
        have htouched := hspared hadded
        exact ⟨_, stored, p, (hpulled hsupplied htouched (Store.Touched.refl htouched.real)).1⟩
    · intro f m₂ hfetch
      obtain ⟨b, hsupplied, htodo, hlater, htouched⟩ := hfetch
      apply After.bind (P := fun _ m' => st.Touched (AmongRemotes st) m₂.fs m'.fs)
      · exact (remotes_touches htouched.real).mono (fun _ _ h => h)
          fun _ m' hnotes => ⟨_, stored, p, (hpulled hsupplied htouched hnotes).1⟩
      intro _ m₃ h₃
      apply After.bind (P := fun _ m' => st.Touched (AmongRemotes st) m₂.fs m'.fs)
      · exact (remote_touches h₃.real haddr).mono (fun _ _ h => h₃.trans h)
          fun _ m' hnotes => ⟨_, stored, p, (hpulled hsupplied htouched (h₃.trans hnotes)).1⟩
      intro _ m₄ h₄
      obtain ⟨hdone, hsupplied'⟩ := hpulled hsupplied htouched h₄
      exact ⟨rfl, w, stored, p, b, hdone, hsupplied', htodo, hlater⟩

/-- **What a pull has done**: nothing when no HEAD comes, and otherwise it has
admitted what its walk stored. -/
theorem pull_after {addr : Bytes} {peer : Peer} {m : Machine} (hreal : st.Real m.fs) :
    After (pull X st addr peer m)
      (fun r m' => (r.remoteHead = none ∧ Quiet addr peer ∧ m' = m) ∨
        ∃ h w stored p b, r.remoteHead = some h ∧ Completed X st addr peer m m' h w stored p b)
      (fun _ m' => (Quiet addr peer ∧ m' = m) ∨
        ∃ h w stored p, Pulled X st addr peer m m' h w stored p) := by
  unfold pull
  by_cases haddr : 58 ∈ addr
  case neg =>
    rw [if_pos haddr]
    exact Or.inl ⟨fun h hh => haddr hh.1, rfl⟩
  rw [if_neg (not_not.mpr haddr)]
  apply after_look_bind
  · intro resp hresp
    split
    case isTrue hsome =>
      have hoffers : Offers peer ⟨resp.tail, by rw [List.length_tail, hsome.1]⟩ := by
        change exchange peer [] [OP_GET_HEAD] = .ok (1 :: resp.tail)
        rw [hresp, ← List.eq_cons_of_mem_head? hsome.2]
      apply (pullHead_after hreal haddr hoffers).mono
      · intro r m' hr
        obtain ⟨hhead, w, stored, p, b, hdone⟩ := hr
        exact Or.inr ⟨_, w, stored, p, b, hhead, hdone⟩
      · intro _ m' hr
        exact Or.inr ⟨_, hr⟩
    case isFalse hnone =>
      have hquiet : Quiet addr peer := by
        intro h hh
        have heq := Except.ok.inj (hresp.symm.trans hh.2)
        exact hnone (by simp [heq, h.2])
      split
      · exact Or.inl ⟨rfl, hquiet, rfl⟩
      · exact Or.inl ⟨hquiet, rfl⟩
  · intro e he
    refine Or.inl ⟨?_, rfl⟩
    intro h hh
    rw [Offers, he] at hh
    cases hh.2

/-- The outcome of a pull. -/
theorem pull_cases {addr : Bytes} {peer : Peer} {m : Machine} (hreal : st.Real m.fs) :
    (Quiet addr peer ∧ finalState (pull X st addr peer m) = m) ∨
      ∃ h w stored p,
        Pulled X st addr peer m (finalState (pull X st addr peer m)) h w stored p := by
  have hafter : After (pull X st addr peer m) _ _ := pull_after hreal
  cases hpull : pull X st addr peer m with
  | ok r m' =>
      rw [hpull] at hafter
      rcases hafter with ⟨_, hquiet, rfl⟩ | ⟨h, w, stored, p, b, _, hdone⟩
      · exact Or.inl ⟨hquiet, rfl⟩
      · exact Or.inr ⟨h, some w, stored, p, hdone.pulled⟩
  | error e m' =>
      rw [hpull] at hafter
      rcases hafter with ⟨hquiet, rfl⟩ | hpulled
      · exact Or.inl ⟨hquiet, rfl⟩
      · exact Or.inr hpulled

theorem Offers.unique {peer : Peer} {h h' : Hash} (hoffers : Offers peer h)
    (hoffers' : Offers peer h') :
    h = h' := by
  have heq := Except.ok.inj (hoffers.symm.trans hoffers')
  exact Subtype.ext (List.cons.inj heq).2

/-! ## Validated manifests -/

/-- After a pull that succeeds everything loads that did or was admitted, and
the HEAD that it reports is here. -/
theorem pull_ok_loads {addr : Bytes} {peer : Peer} {m m' : Machine} {r : PullReport}
    (hreal : st.Real m.fs) (hload : AllLoad X st m.fs) (hpull : pull X st addr peer m = .ok r m') :
    AllLoad X st m'.fs ∧
      ∀ h, r.remoteHead = some h → ∃ mf, Snapshot.load X st m'.fs h = .ok mf := by
  have hafter : After (pull X st addr peer m) _ _ := pull_after hreal
  rw [hpull] at hafter
  rcases hafter with ⟨hnone, _, rfl⟩ | ⟨h, w, stored, p, b, hhead, ⟨hpulled, _, _, _⟩⟩
  · refine ⟨hload, ?_⟩
    intro h hsome
    rw [hnone] at hsome
    cases hsome
  · have hall := (hpulled.admitted.allLoad_iff hreal hload).mpr hpulled.ends.decodes
    refine ⟨hall, ?_⟩
    intro h' hh'
    have hsame := Option.some.inj (hhead.symm.trans hh')
    subst hsame
    apply hall
    have hreal' := hpulled.admitted.real
    rw [hasManifest_iff hreal']
    by_cases hnew : ∃ e ∈ stored, h = e.1
    · obtain ⟨e, he, rfl⟩ := hnew
      obtain ⟨d, hd, _⟩ := hpulled.admitted.stored e he
      simp [hd]
    · rw [hpulled.admitted.old h fun e he heq => hnew ⟨e, he, heq⟩, ← hasManifest_iff hreal]
      rcases hpulled.ends.head with hhas | hmem
      · exact hhas
      · obtain ⟨e, he, rfl⟩ := List.mem_map.mp hmem
        exact absurd ⟨e, he, rfl⟩ hnew

variable (X st) in
/-- Along the chain from its HEAD the peer delivers bytes that are not a valid
manifest, and there is room for them in the store. -/
def ServesUnreadable (addr : Bytes) (peer : Peer) (m : Machine) : Prop :=
  ∃ h p data, 58 ∈ addr ∧ Offers peer h ∧ Comes X st peer m h p ∧
    p.Stores X st peer m data ∧ ∀ mf, Manifest.decode X data ≠ .ok mf

/-- What a pull has stored decodes unless the peer served bytes that do not. -/
theorem Pulled.decodes_iff {addr : Bytes} {peer : Peer} {m m' : Machine} {h : Hash}
    {w : Option Walked} {stored : List (Hash × Bytes)} {p : Position} (hreal : st.Real m.fs)
    (hpulled : Pulled X st addr peer m m' h w stored p) :
    (∀ e ∈ stored, ∃ mf, Manifest.decode X e.2 = .ok mf) ↔
      ¬ ServesUnreadable X st addr peer m := by
  constructor
  · intro hall hbad
    obtain ⟨h', q, data, _, hoffers, hcomes, hstores, hdata⟩ := hbad
    have hh : h = h' := hpulled.offers.unique hoffers
    subst hh
    -- the walk ends where the bad bytes are stored
    have hq : q = p := by
      rcases Relation.ReflTransGen.cases_head (hpulled.ends.last hreal hcomes) with heq | hstep
      · exact heq
      · obtain ⟨_, ⟨data', mf, _, hstores', hreads, _, _⟩, _⟩ := hstep
        have hsame := hstores.delivers.unique hstores'.delivers
        exact absurd hreads.decodes (hsame ▸ hdata mf)
    subst hq
    have hin : (q.cur, data) ∈ stored := by
      cases hpulled.ends.outcome with
      | met hpresent => exact absurd hpresent (hstores.not_present hreal)
      | root hstores' _ _ =>
          rw [hstores.delivers.unique hstores'.delivers]
          exact List.mem_cons_self
      | lost _ hnone => exact absurd hstores (hnone data)
      | unreadable hstores' _ =>
          rw [hstores.delivers.unique hstores'.delivers]
          exact List.mem_cons_self
      | large hstores' _ _ =>
          rw [hstores.delivers.unique hstores'.delivers]
          exact List.mem_cons_self
    obtain ⟨mf, hmf⟩ := hall _ hin
    exact hdata mf hmf
  · intro hgood
    have hpast := hpulled.ends.comes.decodes
    have hcons : ∀ data mf, Manifest.decode X data = .ok mf →
        ∀ e ∈ (p.cur, data) :: p.stored, ∃ mf, Manifest.decode X e.2 = .ok mf := by
      intro data mf hmf e he
      rcases List.mem_cons.mp he with rfl | he
      · exact ⟨mf, hmf⟩
      · exact hpast e he
    cases hpulled.ends.outcome with
    | met _ => exact hpast
    | root _ hreads _ => exact hcons _ _ hreads.decodes
    | lost _ _ => exact hpast
    | unreadable hstores hbad =>
        exact absurd ⟨h, p, _, hpulled.dialled, hpulled.offers, hpulled.ends.comes, hstores, hbad⟩
          hgood
    | large _ hdecode _ => exact hcons _ _ hdecode

variable (X st)

/-- After the pull every manifest of the store loads, and so does the HEAD that
it or a pull after it reports. -/
def AdmitsValid (addr : Bytes) (peer : Peer) (m : Machine) : Prop :=
  AllLoad X st (finalState (pull X st addr peer m)).fs ∧
    (∀ r m' h, pull X st addr peer m = .ok r m' → r.remoteHead = some h →
      ∃ mf, Snapshot.load X st m'.fs h = .ok mf) ∧
    ∀ addr' peer' r m' h, pull X st addr' peer' (finalState (pull X st addr peer m)) = .ok r m' →
      r.remoteHead = some h → ∃ mf, Snapshot.load X st m'.fs h = .ok mf

/-- **A pull admits only valid manifests exactly when the peer delivers no
others**: what it stores is validated only afterwards. -/
theorem pull_admits_iff (addr : Bytes) (peer : Peer) (m : Machine) (hreal : st.Real m.fs)
    (hload : AllLoad X st m.fs) :
    AdmitsValid X st addr peer m ↔ ¬ ServesUnreadable X st addr peer m := by
  have hcases : (Quiet addr peer ∧ finalState (pull X st addr peer m) = m) ∨ ∃ h w stored p,
      Pulled X st addr peer m (finalState (pull X st addr peer m)) h w stored p := pull_cases hreal
  have hreal' : st.Real (finalState (pull X st addr peer m)).fs := by
    rcases hcases with ⟨_, hsame⟩ | ⟨_, _, _, _, hpulled⟩
    · rw [hsame]
      exact hreal
    · exact hpulled.admitted.real
  have hall : AllLoad X st (finalState (pull X st addr peer m)).fs ↔
      ¬ ServesUnreadable X st addr peer m := by
    rcases hcases with ⟨hquiet, hsame⟩ | ⟨h, w, stored, p, hpulled⟩
    · rw [hsame]
      refine iff_of_true hload ?_
      intro hbad
      obtain ⟨h, _, _, haddr, hoffers, _⟩ := hbad
      exact hquiet h ⟨haddr, hoffers⟩
    · rw [hpulled.admitted.allLoad_iff hreal hload]
      exact hpulled.decodes_iff hreal
  constructor
  · intro hadmits
    exact hall.mp hadmits.1
  · intro hgood
    have hload' := hall.mpr hgood
    refine ⟨hload', ?_, ?_⟩
    · intro r m' h hpull hhead
      exact (pull_ok_loads hreal hload hpull).2 h hhead
    · intro addr' peer' r m' h hpull hhead
      exact (pull_ok_loads hreal' hload' hpull).2 h hhead

/-- A new fabric at `w`. -/
def newFabric : Fs := Fs.build (Store.fabricNodes ⟨[str "w"]⟩ [])

/-- Encoded as `evil`: a manifest whose only path leaves the worktree. -/
def traversal : List (Bytes × Manifest) :=
  [(str "evil", smallManifest none none [smallEntry (str "../owned.txt") (str "owned")])]

/-- A peer whose HEAD is that manifest. -/
def traversalPeer : Peer := fun sent =>
  match sent.getLast? with
  | some [1] => some (1 :: (padHash (str "evil")).val)
  | some (2 :: _) => some (payloadFrame (str "evil"))
  | _ => none

theorem newFabric_real : Store.Real ⟨[str "w"]⟩ newFabric :=
  Store.Real.of_keys (by decide +kernel) (by decide +kernel)

/-- A new fabric has no manifests. -/
theorem newFabric_empty (h : Hash) : Store.hasManifest ⟨[str "w"]⟩ newFabric h = false := by
  apply Bool.eq_false_iff.mpr
  intro hhas
  obtain ⟨x, hx⟩ := Option.ne_none_iff_exists'.mp ((hasManifest_iff newFabric_real h).mp hhas)
  have hshort : ∀ k ∈ newFabric.nodes.keys, k.length ≤ 3 := by decide +kernel
  have hlen := hshort _ (newFabric.mem_keys hx)
  simp [Store.manifestPath, Store.fanPath, Store.fabricDir] at hlen

theorem newFabric_allLoad (X : Crates) : AllLoad X ⟨[str "w"]⟩ newFabric := by
  intro h hhas
  rw [newFabric_empty h] at hhas
  cases hhas

abbrev traversalCrates : Crates := smallCrates traversal [] []

/-- The state after a pull from that peer into a new fabric. -/
def traversalPulled : Machine :=
  finalState (pull traversalCrates ⟨[str "w"]⟩ (str "peer:7") traversalPeer
    (Machine.start newFabric))

/-- The second pull succeeds, and what it reports does not load. -/
theorem traversalPulled_again : ∃ r m', pull traversalCrates ⟨[str "w"]⟩ (str "peer:7")
    traversalPeer traversalPulled = .ok r m' ∧ r.remoteHead = some (padHash (str "evil")) ∧
      ∀ mf, Snapshot.load traversalCrates ⟨[str "w"]⟩ m'.fs (padHash (str "evil")) ≠ .ok mf := by
  have hcheck : (match pull traversalCrates ⟨[str "w"]⟩ (str "peer:7") traversalPeer
      traversalPulled with
    | .ok r m' => r.remoteHead == some (padHash (str "evil")) &&
        !(Snapshot.load traversalCrates ⟨[str "w"]⟩ m'.fs (padHash (str "evil"))).isOk
    | .error _ _ => false) = true := by decide +kernel
  split at hcheck
  case _ r m' hpull =>
    obtain ⟨hhead, hload⟩ := Bool.and_eq_true_iff.mp hcheck
    refine ⟨r, m', hpull, by simpa using hhead, ?_⟩
    intro mf hmf
    rw [hmf] at hload
    cases hload
  · cases hcheck

/-- So not everything that is admitted is valid. -/
theorem traversal_admitted : ¬ AdmitsValid traversalCrates ⟨[str "w"]⟩ (str "peer:7")
    traversalPeer (Machine.start newFabric) := by
  intro hadmits
  obtain ⟨r, m', hpull, hhead, hfails⟩ := traversalPulled_again
  obtain ⟨mf, hload⟩ := hadmits.2.2 _ _ r m' _ hpull hhead
  exact hfails mf hload

/-- The first pull from that peer leaves the manifest behind; the second
succeeds, and what it reports does not load. -/
theorem pull_admits_traversal :
    AllLoad traversalCrates ⟨[str "w"]⟩ newFabric ∧
      (∃ r m', pull traversalCrates ⟨[str "w"]⟩ (str "peer:7") traversalPeer traversalPulled =
          .ok r m' ∧ r.remoteHead = some (padHash (str "evil")) ∧
        ∀ mf, Snapshot.load traversalCrates ⟨[str "w"]⟩ m'.fs (padHash (str "evil")) ≠ .ok mf) ∧
      ¬ AdmitsValid traversalCrates ⟨[str "w"]⟩ (str "peer:7") traversalPeer
        (Machine.start newFabric) :=
  ⟨newFabric_allLoad _, traversalPulled_again, traversal_admitted⟩

/-- That peer serves bytes that are no valid manifest. -/
theorem pull_admits_iff_traversal :
    ServesUnreadable traversalCrates ⟨[str "w"]⟩ (str "peer:7") traversalPeer
      (Machine.start newFabric) := by
  by_contra hserves
  exact traversal_admitted ((pull_admits_iff traversalCrates ⟨[str "w"]⟩ (str "peer:7")
    traversalPeer (Machine.start newFabric) newFabric_real (newFabric_allLoad _)).mpr hserves)

end Sync

end Respawn
