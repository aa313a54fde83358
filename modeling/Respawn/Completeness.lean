import Respawn.Admission

/-!
# What a pull completes

A walk stops at the first manifest that is already here.  So a pull completes
the history of the HEAD it reports when the store was `Closed` before: every
manifest in it loads, with its parent and its chunks at hand.  A pull keeps a
store closed when the peer delivers none of what the store lacks, or all of it
(`NoneOrAll`).
-/

namespace Respawn

open ByteStr FileTree StateLogic

variable (X : Crates) (st : Store)

/-- `g` is on the parent chain from `h`. -/
inductive OnChain (fs : Fs) (h : Hash) : Hash → Prop
  | head : OnChain fs h h
  | parent {g p : Hash} {mf : Manifest} (hg : OnChain fs h g)
      (hload : Snapshot.load X st fs g = .ok mf) (hparent : mf.parent = some p) : OnChain fs h p

/-- Every snapshot on the parent chain from `h` is here with its chunks. -/
def HoldsChain (fs : Fs) (h : Hash) : Prop :=
  ∀ g, OnChain X st fs h g → ∃ mf, Snapshot.load X st fs g = .ok mf ∧
    ∀ fe ∈ mf.files, ∀ c ∈ fe.chunks, st.hasObject fs c = true

/-- Every manifest of the store loads, and its parent and chunks are here. -/
structure Closed (fs : Fs) : Prop where
  loads : AllLoad X st fs
  parents : ∀ g mf p, Snapshot.load X st fs g = .ok mf → mf.parent = some p →
    st.hasManifest fs p = true
  chunks : ∀ g mf, Snapshot.load X st fs g = .ok mf → ∀ fe ∈ mf.files, ∀ c ∈ fe.chunks,
    st.hasObject fs c = true

variable {X st}

/-- A closed store holds the chain of each of its manifests. -/
theorem Closed.holdsChain {fs : Fs} {h : Hash} (hclosed : Closed X st fs)
    (hhas : st.hasManifest fs h = true) : HoldsChain X st fs h := by
  have hall : ∀ g, OnChain X st fs h g → st.hasManifest fs g = true := by
    intro g hg
    induction hg with
    | head => exact hhas
    | parent _ hload hparent _ => exact hclosed.parents _ _ _ hload hparent
  intro g hg
  obtain ⟨mf, hload⟩ := hclosed.loads g (hall g hg)
  exact ⟨mf, hload, hclosed.chunks g mf hload⟩

namespace Sync

/-! ## What a walk has stored -/

section Walked

variable {peer : Peer} {m₀ : Machine} {h : Hash} {p : Position}

/-- The parents of the manifests stored are stored or come next, and their
chunks are among those needed. -/
theorem Comes.linked (hcomes : Comes X st peer m₀ h p) :
    ∀ e ∈ p.stored, ∃ mf, Manifest.decode X e.2 = .ok mf ∧
      (∀ g, mf.parent = some g → g = p.cur ∨ g ∈ p.stored.map Prod.fst) ∧
      ∀ fe ∈ mf.files, ∀ c ∈ fe.chunks, c ∈ p.walked.needed := by
  induction hcomes with
  | refl => simp [Position.start]
  | tail _ hstep ih =>
      obtain ⟨data, mf, g, _, hreads, hparent, rfl⟩ := hstep
      intro e he
      rcases List.mem_cons.mp he with rfl | he
      · refine ⟨mf, hreads.decodes, ?_, ?_⟩
        · intro g' hg'
          exact Or.inl (Option.some.inj (hg'.symm.trans hparent))
        · intro fe hfe c hc
          exact List.mem_append_right _ (List.mem_flatMap.mpr ⟨fe, hfe, hc⟩)
      · obtain ⟨mf', hdecode, hparents, hchunks⟩ := ih e he
        refine ⟨mf', hdecode, ?_, ?_⟩
        · intro g' hg'
          rcases hparents g' hg' with rfl | hmem
          · exact Or.inr List.mem_cons_self
          · exact Or.inr (List.mem_cons_of_mem _ hmem)
        · intro fe hfe c hc
          exact List.mem_append_left _ (hchunks fe hfe c hc)

/-- A walk that returns a result has stored the parents too, or found them. -/
theorem Ends.linked {w : Walked} {stored : List (Hash × Bytes)}
    (hends : Ends X st peer m₀ h (some w) stored p) :
    ∀ e ∈ stored, ∃ mf, Manifest.decode X e.2 = .ok mf ∧
      (∀ g, mf.parent = some g →
        st.hasManifest m₀.fs g = true ∨ g ∈ stored.map Prod.fst) ∧
      ∀ fe ∈ mf.files, ∀ c ∈ fe.chunks, c ∈ w.needed := by
  have hlinked := hends.comes.linked
  cases hends.outcome with
  | met hpresent =>
      intro e he
      obtain ⟨mf, hdecode, hparents, hchunks⟩ := hlinked e he
      refine ⟨mf, hdecode, ?_, hchunks⟩
      intro g hg
      rcases hparents g hg with rfl | hmem
      · exact hpresent
      · exact Or.inr hmem
  | root _ hreads hroot =>
      intro e he
      rcases List.mem_cons.mp he with rfl | he
      · refine ⟨_, hreads.decodes, ?_, ?_⟩
        · intro g hg
          rw [hroot] at hg
          cases hg
        · intro fe hfe c hc
          exact List.mem_append_right _ (List.mem_flatMap.mpr ⟨fe, hfe, hc⟩)
      · obtain ⟨mf, hdecode, hparents, hchunks⟩ := hlinked e he
        refine ⟨mf, hdecode, ?_, ?_⟩
        · intro g hg
          rcases hparents g hg with rfl | hmem
          · exact Or.inr List.mem_cons_self
          · exact Or.inr (List.mem_cons_of_mem _ hmem)
        · intro fe hfe c hc
          exact List.mem_append_left _ (hchunks fe hfe c hc)

/-- A walk ends in one way. -/
theorem Ends.unique {p' : Position} {w w' : Option Walked} {stored stored' : List (Hash × Bytes)}
    (hreal : st.Real m₀.fs) (hends : Ends X st peer m₀ h w stored p)
    (hends' : Ends X st peer m₀ h w' stored' p') : w = w' ∧ stored = stored' := by
  have hp : p = p' := by
    rcases Relation.ReflTransGen.cases_head (hends'.last hreal hends.comes) with heq | ⟨_, hstep, _⟩
    · exact heq
    · exact absurd hstep (hends.outcome.no_step hreal)
  subst hp
  have hdata : ∀ {d d' : Bytes}, p.Stores X st peer m₀ d → p.Stores X st peer m₀ d' → d = d' :=
    fun h h' => h.delivers.unique h'.delivers
  cases hends.outcome with
  | met hpresent =>
      cases hends'.outcome with
      | met _ => exact ⟨rfl, rfl⟩
      | root hstores _ _ => exact absurd hpresent (hstores.not_present hreal)
      | lost hnew _ => exact absurd hpresent hnew
      | unreadable hstores _ => exact absurd hpresent (hstores.not_present hreal)
      | large hstores _ _ => exact absurd hpresent (hstores.not_present hreal)
  | root hstores hreads hroot =>
      cases hends'.outcome with
      | met hpresent => exact absurd hpresent (hstores.not_present hreal)
      | root hstores' hreads' hroot' =>
          cases hdata hstores hstores'
          cases hreads.decodes.symm.trans hreads'.decodes
          exact ⟨rfl, rfl⟩
      | lost _ hnone => exact absurd hstores (hnone _)
      | unreadable hstores' hbad =>
          cases hdata hstores hstores'
          exact absurd hreads.decodes (hbad _)
      | large hstores' hdecode hlarge =>
          cases hdata hstores hstores'
          cases hreads.decodes.symm.trans hdecode
          exact absurd hreads hlarge
  | lost hnew hnone =>
      cases hends'.outcome with
      | met hpresent => exact absurd hpresent hnew
      | root hstores _ _ => exact absurd hstores (hnone _)
      | lost _ _ => exact ⟨rfl, rfl⟩
      | unreadable hstores _ => exact absurd hstores (hnone _)
      | large hstores _ _ => exact absurd hstores (hnone _)
  | unreadable hstores hbad =>
      cases hends'.outcome with
      | met hpresent => exact absurd hpresent (hstores.not_present hreal)
      | root hstores' hreads' _ =>
          cases hdata hstores hstores'
          exact absurd hreads'.decodes (hbad _)
      | lost _ hnone => exact absurd hstores (hnone _)
      | unreadable hstores' _ =>
          cases hdata hstores hstores'
          exact ⟨rfl, rfl⟩
      | large hstores' hdecode _ =>
          cases hdata hstores hstores'
          exact absurd hdecode (hbad _)
  | large hstores hdecode hlarge =>
      cases hends'.outcome with
      | met hpresent => exact absurd hpresent (hstores.not_present hreal)
      | root hstores' hreads' _ =>
          cases hdata hstores hstores'
          cases hdecode.symm.trans hreads'.decodes
          exact absurd hreads' hlarge
      | lost _ hnone => exact absurd hstores (hnone _)
      | unreadable hstores' hbad =>
          cases hdata hstores hstores'
          exact absurd hdecode (hbad _)
      | large hstores' _ _ =>
          cases hdata hstores hstores'
          exact ⟨rfl, rfl⟩

end Walked

/-! ## Pulls that keep a store closed -/

section Closed

variable {addr : Bytes} {peer : Peer} {m m' : Machine} {h : Hash} {w : Option Walked}
  {stored : List (Hash × Bytes)} {p : Position}

/-- A manifest that loads after a pull is an old one or one that it stored. -/
theorem Admitted.load_cases {fs fs' : Fs} {g : Hash} {mf : Manifest} (hreal : st.Real fs)
    (hadmitted : Admitted st stored fs fs') (hload : Snapshot.load X st fs' g = .ok mf) :
    (∃ e ∈ stored, g = e.1 ∧ Manifest.decode X e.2 = .ok mf) ∨
      Snapshot.load X st fs g = .ok mf := by
  obtain ⟨d, hd, hdecode⟩ := (load_eq_ok hadmitted.real).mp hload
  by_cases hnew : ∃ e ∈ stored, g = e.1
  · obtain ⟨e, he, rfl⟩ := hnew
    obtain ⟨d', hd', hbytes⟩ := hadmitted.stored e he
    cases hd.symm.trans hd'
    exact Or.inl ⟨e, he, rfl, hbytes ▸ hdecode⟩
  · have hold := hadmitted.old g fun e he heq => hnew ⟨e, he, heq⟩
    exact Or.inr ((load_eq_ok hreal).mpr ⟨d, hold ▸ hd, hdecode⟩)

/-- No manifest goes away. -/
theorem Admitted.keeps {fs fs' : Fs} {g : Hash} (hreal : st.Real fs)
    (hadmitted : Admitted st stored fs fs')
    (hg : st.hasManifest fs g = true ∨ g ∈ stored.map Prod.fst) :
    st.hasManifest fs' g = true := by
  rw [hasManifest_iff hadmitted.real]
  by_cases hnew : g ∈ stored.map Prod.fst
  · obtain ⟨e, he, rfl⟩ := List.mem_map.mp hnew
    obtain ⟨d, hd, _⟩ := hadmitted.stored e he
    simp [hd]
  · rw [hadmitted.old g fun e he heq => hnew (heq ▸ List.mem_map_of_mem he),
      ← hasManifest_iff hreal]
    exact hg.resolve_right hnew

/-- **What keeps a store closed**: manifests stored with their parents and their
chunks. -/
theorem Pulled.closed (hreal : st.Real m.fs) (hclosed : Closed X st m.fs)
    (hpulled : Pulled X st addr peer m m' h w stored p)
    (hstored : ∀ e ∈ stored, ∃ mf, Manifest.decode X e.2 = .ok mf ∧
      (∀ g, mf.parent = some g → st.hasManifest m.fs g = true ∨ g ∈ stored.map Prod.fst) ∧
      ∀ fe ∈ mf.files, ∀ c ∈ fe.chunks, st.hasObject m'.fs c = true) :
    Closed X st m'.fs := by
  refine ⟨?_, ?_, ?_⟩
  · apply (hpulled.admitted.allLoad_iff hreal hclosed.loads).mpr
    intro e he
    obtain ⟨mf, hdecode, _⟩ := hstored e he
    exact ⟨mf, hdecode⟩
  · intro g mf q hload hparent
    apply hpulled.admitted.keeps hreal
    rcases hpulled.admitted.load_cases hreal hload with ⟨e, he, rfl, hdecode⟩ | hold
    · obtain ⟨mf', hdecode', hparents, _⟩ := hstored e he
      cases hdecode.symm.trans hdecode'
      exact hparents q hparent
    · exact Or.inl (hclosed.parents g mf q hold hparent)
  · intro g mf hload fe hfe c hc
    rcases hpulled.admitted.load_cases hreal hload with ⟨e, he, rfl, hdecode⟩ | hold
    · obtain ⟨mf', hdecode', _, hchunks⟩ := hstored e he
      cases hdecode.symm.trans hdecode'
      exact hchunks fe hfe c hc
    · exact hpulled.kept c (hclosed.chunks g mf hold fe hfe c hc)

variable (X st)

/-- Of the manifests and objects that the store lacks of the peer's chain the
peer delivers none, or all. -/
def NoneOrAll (addr : Bytes) (peer : Peer) (m : Machine) : Prop :=
  (∀ h data, 58 ∈ addr → Offers peer h → ¬ (Position.start h).Stores X st peer m data) ∨
    ∃ h w stored p, Offers peer h ∧ Ends X st peer m h (some w) stored p ∧
      ∀ c ∈ w.needed, st.hasObject m.fs c = true ∨ ∃ b, c ∈ b.got.map Prod.fst ∧
        Relation.ReflTransGen
          (AskStep X st peer m.fs m.pid (m.tmpCounter + stored.length)) (Asking.start w) b

variable {X st}

/-- **A pull that gets none or all keeps the store closed.** -/
theorem pull_keeps_closed (hreal : st.Real m.fs) (hclosed : Closed X st m.fs)
    (hall : NoneOrAll X st addr peer m) :
    Closed X st (finalState (pull X st addr peer m)).fs := by
  rcases pull_cases hreal with ⟨_, hsame⟩ | ⟨h, w, stored, p, hpulled⟩
  · rw [hsame]
    exact hclosed
  apply hpulled.closed hreal hclosed
  rcases hall with hnone | ⟨h', w', stored', p', hoffers, hends, hneeded⟩
  · -- nothing is stored at the start, so the walk ends there
    have hstart : ∀ data, ¬ (Position.start h).Stores X st peer m data := fun data =>
      hnone h data hpulled.dialled hpulled.offers
    have hp : p = Position.start h := by
      rcases Relation.ReflTransGen.cases_head hpulled.ends.comes with heq | ⟨_, hstep, _⟩
      · exact heq.symm
      · obtain ⟨data, _, _, hstores, _⟩ := hstep
        exact absurd hstores (hstart data)
    subst hp
    have hempty : stored = [] := by
      cases hpulled.ends.outcome with
      | met _ => rfl
      | root hstores _ _ => exact absurd hstores (hstart _)
      | lost _ _ => rfl
      | unreadable hstores _ => exact absurd hstores (hstart _)
      | large hstores _ _ => exact absurd hstores (hstart _)
    simp [hempty]
  · have hh := hoffers.unique hpulled.offers
    subst hh
    obtain ⟨hw, rfl⟩ := hpulled.ends.unique hreal hends
    obtain ⟨b, hsupplied⟩ := hpulled.supplied w' hw
    intro e he
    obtain ⟨mf, hdecode, hparents, hchunks⟩ := hends.linked e he
    refine ⟨mf, hdecode, hparents, ?_⟩
    intro fe hfe c hc
    rcases hneeded c (hchunks fe hfe c hc) with hhere | ⟨a, hgot, hasks⟩
    · exact hpulled.kept c hhere
    · exact hsupplied.obtained hasks hgot

end Closed

/-! ## An honest peer -/

variable (X) in
/-- A peer that answers from its store, until the connection is cut after `k`
exchanges. -/
def honest (sp : Store) (fsp : Fs) (k : Nat) : Peer := fun sent =>
  if sent.length ≤ k then
    match sent.getLast? with
    | some req => (respondFrame X sp fsp req).toOption
    | none => none
  else none

section Honest

variable {sp : Store} {fsp : Fs} {k : Nat} {peer : Peer}

variable (X) in
/-- What the peer answers it responds from this store. -/
def Answers (sp : Store) (fsp : Fs) (peer : Peer) : Prop :=
  ∀ sent req resp, exchange peer sent req = .ok resp →
    respondFrame X sp fsp req = .ok resp ∧ resp.length ≤ MAX_FRAME

/-- Every answer of an honest peer is what it responds. -/
theorem answers_honest : Answers X sp fsp (honest X sp fsp k) := by
  intro sent req resp h
  unfold exchange honest at h
  rw [List.getLast?_concat] at h
  by_cases hcut : (sent ++ [req]).length ≤ k
  · rw [if_pos hcut] at h
    cases hresp : respondFrame X sp fsp req with
    | error e =>
        simp only [hresp, Except.toOption] at h
        cases h
    | ok answer =>
        simp only [hresp, Except.toOption] at h
        split at h
        · cases h
        case isFalse hshort =>
          cases h
          exact ⟨rfl, not_lt.mp hshort⟩
  · rw [if_neg hcut] at h
    cases h

/-- It offers its HEAD. -/
theorem head_of_honest {h : Hash} (hans : Answers X sp fsp peer) (hoffers : Offers peer h) :
    sp.head fsp = .ok (some h) := by
  obtain ⟨hresp, _⟩ := hans _ _ _ hoffers
  unfold respondFrame at hresp
  simp only [if_true] at hresp
  cases hhead : sp.head fsp with
  | error e =>
      rw [hhead] at hresp
      cases hresp
  | ok head =>
      rw [hhead] at hresp
      cases head with
      | none =>
          have hbytes := Except.ok.inj hresp
          exact absurd (List.cons.inj hbytes).1 (by decide)
      | some h' =>
          have hbytes := Except.ok.inj hresp
          rw [Subtype.ext (List.cons.inj hbytes).2]

/-- It delivers a manifest as it stands in its store. -/
theorem manifest_of_honest {sent : List Bytes} {g : Hash} {data : Bytes}
    (hans : Answers X sp fsp peer)
    (h : Delivers X peer sent (manifestRequest g) g data) :
    sp.getManifestBytes fsp g = .ok data := by
  obtain ⟨resp, hanswer, hpayload⟩ := h.answer
  obtain ⟨hresp, hshort⟩ := hans _ _ _ hanswer
  have hempty : framePayload (payloadFrame []) = .ok [] := framePayload_payloadFrame (by simp)
  unfold respondFrame manifestRequest at hresp
  simp only at hresp
  rw [if_neg (by decide), dif_pos ⟨trivial, g.2⟩] at hresp
  split at hresp
  · cases hbytes : sp.getManifestBytes fsp g with
    | error e =>
        simp only [hbytes] at hresp
        cases hresp
    | ok bytes =>
        simp only [hbytes] at hresp
        cases hresp
        have hlen : bytes.length < 2 ^ 64 := by
          simp only [payloadFrame, List.length_append, leBytes_length, MAX_FRAME] at hshort
          omega
        rw [framePayload_payloadFrame hlen] at hpayload
        exact congrArg Except.ok (Except.ok.inj hpayload)
  · cases hresp
    exact absurd (Except.ok.inj (hempty.symm.trans hpayload)).symm h.nonempty

/-- Asked what it has of a batch, it says what is in its store. -/
theorem respond_have {batch : List Hash} (hbatch : batch.length ≤ HAVE_BATCH) :
    respondFrame X sp fsp (haveRequest batch) =
      .ok (batch.map fun g => if sp.hasObject fsp g then 1 else 0) := by
  have hsmall : batch.length < 256 ^ 4 := by
    simp only [HAVE_BATCH] at hbatch
    omega
  have htake : (leBytes 4 batch.length ++ batch.flatMap Subtype.val).take 4 =
      leBytes 4 batch.length := List.take_left' (leBytes_length 4 _)
  have hdrop : (leBytes 4 batch.length ++ batch.flatMap Subtype.val).drop 4 =
      batch.flatMap Subtype.val := List.drop_left' (leBytes_length 4 _)
  have hlen : (batch.flatMap Subtype.val).length = batch.length * 32 := by
    rw [List.length_flatMap]
    rw [List.map_congr_left (g := fun _ => 32) fun g _ => g.2]
    simp
  unfold respondFrame haveRequest
  simp only [List.cons_append]
  rw [if_neg (by decide), dif_neg (fun hbad => absurd hbad.1 (by decide)),
    if_pos ⟨trivial, by simp⟩, htake, hdrop, leNat_leBytes hsmall, cutHashes_flatMap]
  simp only [List.length_append, leBytes_length, hlen]
  rw [if_neg (not_not.mpr rfl)]

/-- An honest peer says of each hash whether it has the object. -/
theorem have_of_honest {sent : List Bytes} {batch : List Hash} {offered : Bytes}
    (hans : Answers X sp fsp peer) (hbatch : batch.length ≤ HAVE_BATCH)
    (h : exchange peer sent (haveRequest batch) = .ok offered) :
    offered = batch.map fun g => if sp.hasObject fsp g then 1 else 0 :=
  Except.ok.inj ((hans _ _ _ h).1.symm.trans (respond_have hbatch))

/-- What a walk stores from an honest peer loads there. -/
theorem load_of_honest {m₀ : Machine} {p : Position} {data : Bytes} {mf : Manifest}
    (hans : Answers X sp fsp peer)
    (hstores : p.Stores X st peer m₀ data)
    (hdecode : Manifest.decode X data = .ok mf) : Snapshot.load X sp fsp p.cur = .ok mf := by
  unfold Snapshot.load
  rw [manifest_of_honest hans hstores.delivers]
  exact hdecode

/-- An honest peer has the chunks of its chain. -/
theorem chunk_of_honest {h g : Hash} {mf : Manifest} {c : Hash} (hholds : HoldsChain X sp fsp h)
    (honchain : OnChain X sp fsp h g) (hload : Snapshot.load X sp fsp g = .ok mf)
    (hc : c ∈ mf.files.flatMap FileEntry.chunks) : sp.hasObject fsp c = true := by
  obtain ⟨mf', hload', hchunks⟩ := hholds g honchain
  cases hload.symm.trans hload'
  obtain ⟨fe, hfe, hcfe⟩ := List.mem_flatMap.mp hc
  exact hchunks fe hfe c hcfe

/-- A walk along the chain of an honest peer stays on that chain, and the chunks
it needs are with the peer. -/
theorem comes_of_honest {m₀ : Machine} {h : Hash} {p : Position} (hans : Answers X sp fsp peer)
    (hholds : HoldsChain X sp fsp h) (hcomes : Comes X st peer m₀ h p) :
    OnChain X sp fsp h p.cur ∧ ∀ c ∈ p.walked.needed, sp.hasObject fsp c = true := by
  induction hcomes with
  | refl => exact ⟨.head, by simp [Position.start]⟩
  | tail _ hstep ih =>
      obtain ⟨data, mf, g, hstores, hreads, hparent, rfl⟩ := hstep
      obtain ⟨honchain, hneeded⟩ := ih
      have hload : Snapshot.load X sp fsp _ = .ok mf := load_of_honest hans hstores hreads.decodes
      refine ⟨.parent honchain hload hparent, ?_⟩
      intro c hc
      rcases List.mem_append.mp hc with hold | hnew
      · exact hneeded c hold
      · exact chunk_of_honest hholds honchain hload hnew

/-- An honest peer has the chunks that are needed. -/
theorem ends_of_honest {m₀ : Machine} {h : Hash} {p : Position} {w : Walked}
    {stored : List (Hash × Bytes)} (hans : Answers X sp fsp peer)
    (hholds : HoldsChain X sp fsp h) (hends : Ends X st peer m₀ h (some w) stored p) :
    ∀ c ∈ w.needed, sp.hasObject fsp c = true := by
  obtain ⟨honchain, hneeded⟩ := comes_of_honest hans hholds hends.comes
  cases hends.outcome with
  | met _ => exact hneeded
  | root hstores hreads _ =>
      intro c hc
      rcases List.mem_append.mp hc with hold | hnew
      · exact hneeded c hold
      · exact chunk_of_honest hholds honchain (load_of_honest hans hstores hreads.decodes) hnew

/-- A needed chunk is to be asked for, or offered and to be fetched, or here. -/
def Pending (st : Store) (fs : Fs) (a : Asking) (c : Hash) : Prop :=
  (∃ batch ∈ a.later, c ∈ batch) ∨ (c, 1) ∈ a.todo ∨ a.Here st fs c

/-- With an honest peer that has the chunk it stays so. -/
theorem pending_of_honest {fs : Fs} {pid n : Nat} {a b : Asking} {c : Hash}
    (hans : Answers X sp fsp peer)
    (hc : sp.hasObject fsp c = true) (hbatches : ∀ batch ∈ a.later, batch.length ≤ HAVE_BATCH)
    (hstep : AskStep X st peer fs pid n a b) (hpending : Pending st fs a c) :
    Pending st fs b c ∧ ∀ batch ∈ b.later, batch.length ≤ HAVE_BATCH := by
  cases hstep with
  | @ask batch rest offered htodo hlater hanswer hlen =>
      rw [hlater] at hbatches
      have hoffered := have_of_honest hans (hbatches batch List.mem_cons_self) hanswer
      refine ⟨?_, fun b hb => hbatches b (List.mem_cons_of_mem _ hb)⟩
      rcases hpending with ⟨b, hb, hcb⟩ | htodo' | hhere
      · rw [hlater] at hb
        rcases List.mem_cons.mp hb with rfl | hb
        · right
          left
          simp only [hoffered]
          rw [← List.map_prod_left_eq_zip, List.mem_map]
          exact ⟨c, hcb, by simp [hc]⟩
        · exact Or.inl ⟨b, hb, hcb⟩
      · rw [htodo] at htodo'
        cases htodo'
      · exact Or.inr (Or.inr hhere)
  | @skip h offered todo htodo hskip =>
      refine ⟨?_, hbatches⟩
      rcases hpending with hlater | htodo' | hhere
      · exact Or.inl hlater
      · rw [htodo] at htodo'
        rcases List.mem_cons.mp htodo' with heq | hrest
        · cases heq
          exact Or.inr (Or.inr (hskip.resolve_left fun hne => hne rfl))
        · exact Or.inr (Or.inl hrest)
      · exact Or.inr (Or.inr hhere)
  | @get h todo data htodo hobtains =>
      refine ⟨?_, hbatches⟩
      rcases hpending with hlater | htodo' | hhere
      · exact Or.inl hlater
      · rw [htodo] at htodo'
        rcases List.mem_cons.mp htodo' with heq | hrest
        · cases heq
          exact Or.inr (Or.inr (Or.inr List.mem_cons_self))
        · exact Or.inr (Or.inl hrest)
      · rcases hhere with hhas | hgot
        · exact Or.inr (Or.inr (Or.inl hhas))
        · exact Or.inr (Or.inr (Or.inr (List.mem_cons_of_mem _ hgot)))

/-- A conversation with it that came to its end has every chunk needed that the
peer has. -/
theorem here_of_needed {fs : Fs} {pid n : Nat} {w : Walked} {b : Asking} {c : Hash}
    (hans : Answers X sp fsp peer) (hpeer : sp.hasObject fsp c = true) (hc : c ∈ w.needed)
    (hasks : Relation.ReflTransGen (AskStep X st peer fs pid n) (Asking.start w) b)
    (htodo : b.todo = []) (hlater : b.later = []) : b.Here st fs c := by
  have hpending : Pending st fs b c ∧ ∀ batch ∈ b.later, batch.length ≤ HAVE_BATCH := by
    clear htodo hlater
    induction hasks with
    | refl =>
        refine ⟨Or.inl ?_, fun batch hbatch => length_of_mem_batches hbatch⟩
        obtain ⟨batch, hbatch, hcb⟩ := mem_batches (n := HAVE_BATCH) (by decide) (Nat.le_refl _)
          (mem_sortDedup.mpr hc)
        exact ⟨batch, hbatch, hcb⟩
    | tail _ hstep ih => exact pending_of_honest hans hpeer ih.2 hstep ih.1
  rcases hpending.1 with ⟨batch, hbatch, _⟩ | hin | hhere
  · rw [hlater] at hbatch
    cases hbatch
  · rw [htodo] at hin
    cases hin
  · exact hhere

/-- **A pull from an honest peer that goes through has all the chunks it needs.** -/
theorem Completed.chunks {addr : Bytes} {m m' : Machine} {h : Hash} {w : Walked}
    {stored : List (Hash × Bytes)} {p : Position} {b : Asking}
    (hans : Answers X sp fsp peer)
    (hdone : Completed X st addr peer m m' h w stored p b)
    (hholds : HoldsChain X sp fsp h) : ∀ c ∈ w.needed, st.hasObject m'.fs c = true := by
  intro c hc
  have hpeer := ends_of_honest hans hholds hdone.pulled.ends c hc
  exact (hdone.supplied.objects c).mpr
    (here_of_needed hans hpeer hc hdone.supplied.asks hdone.todo hdone.later)

/-- A connection that is cut before a manifest was answered delivers nothing. -/
theorem noneOrAll_of_cut {addr : Bytes} {m : Machine} (hk : k ≤ 1) :
    NoneOrAll X st addr (honest X sp fsp k) m := by
  left
  intro h data _ _ hstores
  obtain ⟨resp, hanswer, _⟩ := hstores.delivers.answer
  unfold exchange honest Position.start at hanswer
  rw [if_neg (by simp; omega)] at hanswer
  cases hanswer

end Honest

/-! ## Runs of pulls -/

variable (X st)

/-- One earlier pull, in a process of its own, that got none or all of what the
store lacked. -/
def EarlierPull (fs fs' : Fs) : Prop :=
  ∃ addr peer m, m.fs = fs ∧ NoneOrAll X st addr peer m ∧
    fs' = (finalState (pull X st addr peer m)).fs

/-- **A pull is complete when every earlier one got none or all.**  After any
number of such pulls into an empty store, a pull from an honest peer with the
whole history of its HEAD leaves that history here when it succeeds. -/
theorem pull_complete (fs₀ : Fs) (hreal : st.Real fs₀)
    (hempty : ∀ h, st.hasManifest fs₀ h = false) (m : Machine)
    (hrun : Relation.ReflTransGen (EarlierPull X st) fs₀ m.fs) (addr : Bytes) (sp : Store)
    (fsp : Fs) (k : Nat) (hwhole : ∀ h, sp.head fsp = .ok (some h) → HoldsChain X sp fsp h)
    (r : PullReport) (m' : Machine) (h : Hash)
    (hpull : pull X st addr (honest X sp fsp k) m = .ok r m') (hhead : r.remoteHead = some h) :
    HoldsChain X st m'.fs h := by
  have hloads : ∀ g mf, Snapshot.load X st fs₀ g ≠ .ok mf := by
    intro g mf hload
    obtain ⟨d, hd, _⟩ := (load_eq_ok hreal).mp hload
    have hhas := (hasManifest_iff hreal g).mpr (by simp [hd])
    rw [hempty g] at hhas
    cases hhas
  have hbefore : ∀ fs, Relation.ReflTransGen (EarlierPull X st) fs₀ fs →
      st.Real fs ∧ Closed X st fs := by
    intro fs hpulls
    induction hpulls with
    | refl =>
        refine ⟨hreal, ?_, fun g mf _ hload => absurd hload (hloads g mf),
          fun g mf hload => absurd hload (hloads g mf)⟩
        intro g hg
        rw [hempty g] at hg
        cases hg
    | tail _ hstep ih =>
        obtain ⟨addr', peer, m₁, rfl, hall, rfl⟩ := hstep
        have htouched := (pull_touches ih.1 : After (pull X st addr' peer m₁) _ _).final
          (P := fun m' : Machine => st.Touched (Reaches st) m₁.fs m'.fs)
        exact ⟨htouched.real, pull_keeps_closed ih.1 ih.2 hall⟩
  obtain ⟨hreal, hclosed⟩ := hbefore m.fs hrun
  have hafter : After (pull X st addr (honest X sp fsp k) m) _ _ := pull_after hreal
  rw [hpull] at hafter
  rcases hafter with ⟨hnone, _⟩ | ⟨h', w, stored, p, b, hhead', hdone⟩
  · rw [hnone] at hhead
    cases hhead
  · cases hhead.symm.trans hhead'
    have hchunks := hdone.chunks answers_honest
      (hwhole _ (head_of_honest answers_honest hdone.pulled.offers))
    have hclosed' : Closed X st m'.fs := by
      apply hdone.pulled.closed hreal hclosed
      intro e he
      obtain ⟨mf, hdecode, hparents, hneeded⟩ := hdone.pulled.ends.linked e he
      exact ⟨mf, hdecode, hparents, fun fe hfe c hc => hchunks c (hneeded fe hfe c hc)⟩
    exact hclosed'.holdsChain (hdone.pulled.admitted.keeps hreal hdone.pulled.ends.head)

/-- Two snapshots, the first the parent of the second. -/
def pairTable : List (Bytes × Manifest) :=
  [(str "one", smallManifest none none [smallEntry (str "a") (str "x")]),
   (str "two", smallManifest (some (str "one")) none [smallEntry (str "a") (str "y")])]

abbrev pairCrates : Crates := smallCrates pairTable [] []

/-- A fabric at `p` with both, the second one its HEAD. -/
def pairFabric : Fs :=
  Fs.build (Store.fabricNodes ⟨[str "p"]⟩ (hashHex (padHash (str "two"))) ++
    Store.blobNodes ⟨[str "p"]⟩ (str "manifests") (padHash (str "one")) (str "one") ++
    Store.blobNodes ⟨[str "p"]⟩ (str "manifests") (padHash (str "two")) (str "two") ++
    Store.blobNodes ⟨[str "p"]⟩ (str "objects") (padHash (str "x")) (str "x") ++
    Store.blobNodes ⟨[str "p"]⟩ (str "objects") (padHash (str "y")) (str "y"))

/-- The peer at `p`, cut after `k` exchanges. -/
abbrev pairPeer (k : Nat) : Peer := honest pairCrates ⟨[str "p"]⟩ pairFabric k

/-- A chain within a list of snapshots that are all here is held. -/
theorem holdsChain_of_list {X : Crates} {st : Store} {fs : Fs} {h : Hash}
    (l : List (Hash × Manifest)) (hh : h ∈ l.map Prod.fst)
    (hl : ∀ e ∈ l, Snapshot.load X st fs e.1 = .ok e.2 ∧
      (∀ p, e.2.parent = some p → p ∈ l.map Prod.fst) ∧
      ∀ fe ∈ e.2.files, ∀ c ∈ fe.chunks, st.hasObject fs c = true) : HoldsChain X st fs h := by
  have hin : ∀ g, OnChain X st fs h g → g ∈ l.map Prod.fst := by
    intro g hg
    induction hg with
    | head => exact hh
    | parent _ hload hparent ih =>
        obtain ⟨e, he, rfl⟩ := List.mem_map.mp ih
        obtain ⟨hload', hparents, _⟩ := hl e he
        cases hload.symm.trans hload'
        exact hparents _ hparent
  intro g hg
  obtain ⟨e, he, rfl⟩ := List.mem_map.mp (hin g hg)
  obtain ⟨hload, _, hchunks⟩ := hl e he
  exact ⟨e.2, hload, hchunks⟩

/-- The peer has its chain. -/
theorem pairFabric_holds :
    HoldsChain pairCrates ⟨[str "p"]⟩ pairFabric (padHash (str "two")) := by
  apply holdsChain_of_list (pairTable.map fun e => (padHash e.1, e.2)) (by decide +kernel)
  intro e he
  have hcheck : ∀ e ∈ pairTable.map fun e => (padHash e.1, e.2),
      (Snapshot.load pairCrates ⟨[str "p"]⟩ pairFabric e.1).toOption = some e.2 ∧
      (e.2.parent.all fun p => (pairTable.map fun e => padHash e.1).contains p) = true ∧
      (e.2.files.all fun fe => fe.chunks.all fun c =>
        Store.hasObject ⟨[str "p"]⟩ pairFabric c) = true := by decide +kernel
  obtain ⟨hload, hparent, hchunks⟩ := hcheck e he
  refine ⟨eq_ok_of_toOption hload, ?_, ?_⟩
  · intro p hp
    rw [hp] at hparent
    simpa using hparent
  · intro fe hfe c hc
    exact List.all_eq_true.mp (List.all_eq_true.mp hchunks fe hfe) c hc

/-- The state after a pull from it that was cut after HEAD and one manifest. -/
def pairPulled : Machine :=
  finalState (pull pairCrates ⟨[str "w"]⟩ (str "peer:7") (pairPeer 2) (Machine.start newFabric))

/-- After that pull another one from the same peer, that is not cut, succeeds
and leaves the first snapshot missing. -/
theorem pull_complete_cut :
    HoldsChain pairCrates ⟨[str "p"]⟩ pairFabric (padHash (str "two")) ∧
      ∃ r m', pull pairCrates ⟨[str "w"]⟩ (str "peer:7") (pairPeer 100) pairPulled = .ok r m' ∧
        r.remoteHead = some (padHash (str "two")) ∧
        ¬ HoldsChain pairCrates ⟨[str "w"]⟩ m'.fs (padHash (str "two")) := by
  refine ⟨pairFabric_holds, ?_⟩
  have hcheck :
      (returned (pull pairCrates ⟨[str "w"]⟩ (str "peer:7") (pairPeer 100) pairPulled)).map
          PullReport.remoteHead = some (some (padHash (str "two"))) ∧
      (Snapshot.load pairCrates ⟨[str "w"]⟩ (finalState (pull pairCrates ⟨[str "w"]⟩
          (str "peer:7") (pairPeer 100) pairPulled)).fs (padHash (str "two"))).toOption.map
          Manifest.parent = some (some (padHash (str "one"))) ∧
      (Snapshot.load pairCrates ⟨[str "w"]⟩ (finalState (pull pairCrates ⟨[str "w"]⟩
          (str "peer:7") (pairPeer 100) pairPulled)).fs (padHash (str "one"))).toOption = none := by
    decide +kernel
  obtain ⟨hhead, hload, hmissing⟩ := hcheck
  obtain ⟨r, hr, hremote⟩ := Option.map_eq_some_iff.mp hhead
  obtain ⟨mf, hmf, hparent⟩ := Option.map_eq_some_iff.mp hload
  refine ⟨r, _, eq_ok_of_returned hr, hremote, ?_⟩
  intro hholds
  obtain ⟨mf', hload', _⟩ := hholds _ (.parent .head (eq_ok_of_toOption hmf) hparent)
  rw [hload'] at hmissing
  cases hmissing

/-- A pull from it that is not cut, after one that was cut before any manifest. -/
theorem pull_complete_pair :
    let m := finalState (pull pairCrates ⟨[str "w"]⟩ (str "peer:7") (pairPeer 1)
      (Machine.start newFabric))
    ∃ r m', pull pairCrates ⟨[str "w"]⟩ (str "peer:7") (pairPeer 100) m = .ok r m' ∧
      r.remoteHead = some (padHash (str "two")) ∧
      HoldsChain pairCrates ⟨[str "w"]⟩ m'.fs (padHash (str "two")) := by
  intro m
  have hcheck : (match pull pairCrates ⟨[str "w"]⟩ (str "peer:7") (pairPeer 100) m with
    | .ok r _ => r.remoteHead == some (padHash (str "two"))
    | .error _ _ => false) = true := by decide +kernel
  split at hcheck
  case _ r m' hpull =>
    refine ⟨r, m', hpull, eq_of_beq hcheck, ?_⟩
    apply pull_complete pairCrates ⟨[str "w"]⟩ newFabric newFabric_real newFabric_empty m
      (.single ⟨_, _, Machine.start newFabric, rfl, noneOrAll_of_cut (by decide), rfl⟩) _
      ⟨[str "p"]⟩ pairFabric 100 _ r m' _ hpull (eq_of_beq hcheck)
    intro h hhead
    have hsome : Store.head ⟨[str "p"]⟩ pairFabric = .ok (some (padHash (str "two"))) := by
      decide +kernel
    cases hhead.symm.trans hsome
    exact pairFabric_holds
  · cases hcheck

end Sync

end Respawn
