import Respawn.Erasure

/-!
# Older versions of what was purged

A purge deletes the chunks of every version of a path, but its tombstone names
one content: that of the live file or, without one, that of the newest snapshot
with the path.  An older version is dead under the path's own name only; under
another name it is a content like any other (`older_version_returns`), unless
it has a tombstone (`purged_stays_dead`).
-/

namespace Respawn

open ByteStr FileTree StateLogic

variable {F : FleetCrates} {st : Store}

namespace Purge

/-- The name of a path in manifests. -/
def nameIn (r : RelPath) : Bytes := replaceByte backslash slash (lossy r.text)

/-- A stored snapshot has the path with this content. -/
def Held (X : Crates) (st : Store) (path : Bytes) (x : Hash) (fs : Fs) : Prop :=
  ∃ id mf, Snapshot.load X st fs id = .ok mf ∧ ∃ fe ∈ mf.files, fe.path = path ∧ fe.content = x

/-- A stored snapshot has another path with this content. -/
def HeldElsewhere (X : Crates) (st : Store) (path : Bytes) (x : Hash) (fs : Fs) : Prop :=
  ∃ id mf, Snapshot.load X st fs id = .ok mf ∧ ∃ fe ∈ mf.files, fe.path ≠ path ∧ fe.content = x

/-- The live file has this content or, if there is none, the first snapshot
listed with the path has it with this content. -/
def Current (X : Crates) (st : Store) (r : RelPath) (x : Hash) (fs : Fs) : Prop :=
  liveContent X (r.under st.root) fs = .ok (some x) ∨
    liveContent X (r.under st.root) fs = .ok none ∧
      ∃ manifests, Snapshot.list X st fs = .ok manifests ∧
        ((manifests.flatMap fun s => s.2.files).find? fun fe => fe.path = nameIn r).map
          FileEntry.content = some x

/-- Every content that only this path has in stored snapshots is the current
one, or has a tombstone already. -/
def OneVersion (X : Crates) (st : Store) (r : RelPath) (fs : Fs) : Prop :=
  ∀ x, Held X st (nameIn r) x fs → ¬ HeldElsewhere X st (nameIn r) x fs →
    Current X st r x fs ∨ ∃ t, Recorded X st t fs ∧ t.content = hashHex x

/-- **The current content is the one that is buried.** -/
theorem content_of_current {X : Crates} {rel : Bytes} {r : RelPath} {x : Hash} {fs : Fs}
    {p : Plan} (hrel : sanitizeRel rel = .ok r) (hcurrent : Current X st r x fs)
    (hplan : plan X st st.root rel fs = .ok p) : p.content = x := by
  unfold plan at hplan
  rw [hrel] at hplan
  simp only at hplan
  split at hplan
  · cases hplan
  case _ live hlive =>
    split at hplan
    · cases hplan
    case _ manifests hlist =>
      simp only [scanManifests, List.head?_filter] at hplan
      have hchosen : live.or (((manifests.flatMap fun s => s.2.files).find? fun fe =>
          fe.path = nameIn r).map FileEntry.content) = some x := by
        rcases hcurrent with hfile | ⟨hnone, manifests', hlist', hnewest⟩
        · cases hlive.symm.trans hfile
          rfl
        · cases hlive.symm.trans hnone
          cases hlist.symm.trans hlist'
          exact hnewest
      unfold nameIn at hchosen
      rw [hchosen] at hplan
      simp only at hplan
      split at hplan
      · cases hplan
      · cases hplan
      · cases hplan
        rfl

end Purge

namespace Cli

/-- No manifest that the command makes has a content that only this path had in
the snapshots stored in `fs`. -/
def StaysDead (F : FleetCrates) (st : Store) (path : Bytes) (fs : Fs) (c : Command)
    (m : Machine) : Prop :=
  ∀ mf, Commits F st c m mf → ∀ x, Purge.Held F.toCrates st path x fs →
    ¬ Purge.HeldElsewhere F.toCrates st path x fs → ∀ fe ∈ mf.files, fe.content ≠ x

/-- **What was purged stays dead under any name**, in every run that keeps the
file of tombstones, when the path had one version. -/
theorem purged_stays_dead {order : List Hash → List Hash} {rel : Bytes} {r : RelPath}
    {report : Purge.PurgeReport} {m₁ m₂ m₃ : Machine} {c : Command}
    (hencodes : ∀ p, Purge.plan F.toCrates st st.root rel m₁.fs = .ok p →
      TombEncodes F.toCrates (Purge.tombstone F.toCrates p (unixSecs m₁.clock)))
    (hreal : st.Real m₁.fs) (hledger : Ledger st m₁.fs) (hrel : sanitizeRel rel = .ok r)
    (hpurge : Purge.run F.toCrates st order st.root rel m₁ = .ok report m₂)
    (hlive : m₁.fs.resolve false (r.under st.root) ≠ .ok (tombstonePath st))
    (honly : Purge.OneVersion F.toCrates st r m₁.fs)
    (since : Runs F st (KeepsLedger F st) m₂ m₃) (hc : KeepsLedger F st c m₃) :
    StaysDead F st (Purge.nameIn r) m₁.fs c m₃ := by
  obtain ⟨hreal₂, hgrows, p, hplan, hburied⟩ := Purge.run_buries hencodes hreal hledger
    (fun r' hrel' => Except.ok.inj (hrel.symm.trans hrel') ▸ hlive) hpurge
  intro mf hcommits x hheld hnot
  -- some tombstone with the content stands
  obtain ⟨t, hcontent, hstands⟩ : ∃ t : Tombstone, t.content = hashHex x ∧
      Buried F.toCrates st t m₂.fs := by
    rcases honly x hheld hnot with hcurrent | ⟨t, hrecorded, hcontent⟩
    · refine ⟨_, ?_, hburied⟩
      show hashHex p.content = hashHex x
      rw [Purge.content_of_current hrel hcurrent hplan]
    · exact ⟨t, hcontent, (hrecorded.buried hreal hledger).grow hgrows⟩
  obtain ⟨hreal₃, hburied₃⟩ := since.keeps (fun h => h.grow)
    (fun _ _ h hI => ⟨h.bounded hI, h.toSparesLedger⟩) hreal₂ hstands
  have henforced := enforced_of_buried hreal₃ hburied₃ (hc.bounded hburied₃)
  intro fe hfe heq
  apply (henforced.committed mf hcommits fe hfe).2
  rw [heq, hcontent]

/-! ## Small runs -/

/-- Snapshots with the file `a`, first with the content `A` and then with `B`. -/
def versions : List (Bytes × Manifest) :=
  [(str "one", smallManifest none none [smallEntry (str "a") (str "A")]),
   (str "two", smallManifest (some (str "one")) none [smallEntry (str "a") (str "B")])]

/-- The tombstone of `a` with this content. -/
def versionTomb (content : Bytes) : Tombstone :=
  { path := str "a"
    content := hashHex (padHash content)
    purgeId := (hashHex (padHash (str "a:" ++ hashHex (padHash content)))).take 16
    ts := 0 }

/-- Crates that know the first `n` snapshots and the tombstone of a content. -/
def versionCrates (n : Nat) (content : Bytes) : FleetCrates :=
  { Fleet.fleetCrates with
    toCrates := smallCrates (versions.take n) [] [(str "tomb", versionTomb content)] }

/-- A fabric with both snapshots and a signing key, and the live file `a`. -/
def versionFabric (head content : Bytes) : Fs :=
  Fs.build (Store.fabricNodes ⟨[str "w"]⟩ (hashHex (padHash head)) ++
    Store.blobNodes ⟨[str "w"]⟩ (str "manifests") (padHash (str "one")) (str "one") ++
    Store.blobNodes ⟨[str "w"]⟩ (str "manifests") (padHash (str "two")) (str "two") ++
    [(Keychain.secretPath ⟨[str "w"]⟩, Store.plainFile (hexEncode Fleet.fleetSeed)),
     (Anchor.fabricIdPath ⟨[str "w"]⟩, Store.plainFile (str "fabric")),
     ([str "w", str "a"], Store.plainFile content)])

example : ((versionFabric (str "two") (str "B")).get [str "w", str "a"]) =
    some (Store.plainFile (str "B")) := by
  decide +kernel

/-- What is loaded is one of the snapshots in the table. -/
theorem mem_versions_of_load {n : Nat} {content : Bytes} {fs : Fs} {id : Hash} {mf : Manifest}
    (h : Snapshot.load (versionCrates n content).toCrates st fs id = .ok mf) :
    mf ∈ (versions.take n).map Prod.snd := by
  unfold Snapshot.load at h
  split at h
  · cases h
  case _ bytes _ =>
    have hjson : tableDecode (versions.take n) bytes = .ok mf := (Manifest.decode_ok h).1
    unfold tableDecode at hjson
    split at hjson
    case _ e hfind =>
      rw [← Except.ok.inj hjson]
      exact List.mem_map_of_mem (List.mem_of_find?_eq_some hfind)
    · cases hjson

/-- Purging `a`. -/
abbrev purgeA (n : Nat) (head content : Bytes) :
    EStateM.Result Error Machine Purge.PurgeReport :=
  Purge.run (versionCrates n content).toCrates ⟨[str "w"]⟩ id [str "w"] (str "a")
    (Machine.start (versionFabric head content))

/-- A snapshot keeps the file of tombstones. -/
theorem keepsLedger_snap {message : Bytes} {actor : Option Bytes} {m : Machine} :
    KeepsLedger F st (.snap message actor) m := by
  refine ⟨allowed_snap.2, ?_, ?_⟩
  · intro _ _ _ happlies
    cases happlies
  · intro _ _ _ _ _ _ _ _ _ _ _ heq
    cases heq

/-- The codec of these crates on their tombstone. -/
theorem tombEncodes_version {n : Nat} {content : Bytes} :
    TombEncodes (versionCrates n content).toCrates (versionTomb content) := by
  have hline : (versionCrates n content).tombstoneToJson (versionTomb content) = str "tomb" := by
    show tableEncode [(str "tomb", versionTomb content)] (versionTomb content) = str "tomb"
    simp [tableEncode]
  refine ⟨?_, ?_, ?_, ?_⟩
  · rw [hline]
    rfl
  · rw [hline]
    decide
  · rw [hline]
    decide
  · rw [hline]
    decide

/-- The one version that `a` had is not snapshotted under another name. -/
theorem purged_stays_dead_renamed : StaysDead (versionCrates 1 (str "A")) ⟨[str "w"]⟩ (str "a")
    (versionFabric (str "one") (str "A")) (.snap [] none)
    (remake (str "b") (str "A") (finalState (purgeA 1 (str "one") (str "A")))) := by
  obtain ⟨report, hpurge⟩ := exists_of_succeeded (r := purgeA 1 (str "one") (str "A"))
    (by decide +kernel)
  obtain ⟨r, hrel, hname, hlive, hlead⟩ : ∃ r, sanitizeRel (str "a") = .ok r ∧
      Purge.nameIn r = str "a" ∧ Purge.liveContent (versionCrates 1 (str "A")).toCrates
        (r.under [str "w"]) (versionFabric (str "one") (str "A")) = .ok (some (padHash (str "A"))) ∧
      (versionFabric (str "one") (str "A")).resolve false (r.under [str "w"]) ≠
        .ok (tombstonePath ⟨[str "w"]⟩) := by
    refine ⟨_, rfl, by decide +kernel, eq_ok_of_toOption (by decide +kernel), by decide +kernel⟩
  have hencodes : ∀ p, Purge.plan (versionCrates 1 (str "A")).toCrates ⟨[str "w"]⟩ [str "w"]
      (str "a") (versionFabric (str "one") (str "A")) = .ok p → TombEncodes
        (versionCrates 1 (str "A")).toCrates
        (Purge.tombstone (versionCrates 1 (str "A")).toCrates p (unixSecs 0)) := by
    intro p hplan
    have htomb : ((Purge.plan (versionCrates 1 (str "A")).toCrates ⟨[str "w"]⟩ [str "w"]
        (str "a") (versionFabric (str "one") (str "A"))).toOption.map fun p =>
          Purge.tombstone (versionCrates 1 (str "A")).toCrates p (unixSecs 0)) =
        some (versionTomb (str "A")) := by decide +kernel
    rw [hplan] at htomb
    have hsame : Purge.tombstone (versionCrates 1 (str "A")).toCrates p (unixSecs 0) =
        versionTomb (str "A") := Option.some.inj htomb
    rw [hsame]
    exact tombEncodes_version
  have honly : Purge.OneVersion (versionCrates 1 (str "A")).toCrates ⟨[str "w"]⟩ r
      (versionFabric (str "one") (str "A")) := by
    intro x hheld _
    obtain ⟨id, mf, hload, fe, hfe, _, rfl⟩ := hheld
    have hmf := mem_versions_of_load hload
    have hcontents : ∀ mf ∈ (versions.take 1).map Prod.snd, ∀ fe ∈ mf.files,
        fe.content = padHash (str "A") := by decide +kernel
    rw [hcontents mf hmf fe hfe]
    exact Or.inl (Or.inl hlive)
  have hreal : Store.Real ⟨[str "w"]⟩ (versionFabric (str "one") (str "A")) :=
    Store.Real.of_keys (by decide +kernel) (by decide +kernel)
  have hledger : Ledger ⟨[str "w"]⟩ (versionFabric (str "one") (str "A")) :=
    ⟨[], Or.inl ⟨by decide +kernel, rfl⟩, Or.inl rfl⟩
  have since : Runs (versionCrates 1 (str "A")) ⟨[str "w"]⟩
      (KeepsLedger (versionCrates 1 (str "A")) ⟨[str "w"]⟩)
      (finalState (purgeA 1 (str "one") (str "A")))
      (remake (str "b") (str "A") (finalState (purgeA 1 (str "one") (str "A")))) :=
    .edit .start (remake_outside (by decide) _)
  have hdead := purged_stays_dead (c := .snap [] none) hencodes hreal hledger hrel hpurge hlead
    honly since keepsLedger_snap
  rwa [hname] at hdead

/-- Once a path is purged, no manifest that is made later has a content that
only this path had. -/
def VersionsStayDead (F : FleetCrates) (st : Store) : Prop :=
  ∀ (order : List Hash → List Hash) (rel : Bytes) (r : RelPath) (report : Purge.PurgeReport)
    (m₁ m₂ m₃ : Machine) (c : Command), st.Real m₁.fs → Ledger st m₁.fs →
    sanitizeRel rel = .ok r →
    Purge.run F.toCrates st order st.root rel m₁ = .ok report m₂ →
    Runs F st (KeepsLedger F st) m₂ m₃ → KeepsLedger F st c m₃ →
    StaysDead F st (Purge.nameIn r) m₁.fs c m₃

/-- The machine after `a` was purged with the content `B`, with the older
content in the file `b`. -/
def renamed : Machine := remake (str "b") (str "A") (finalState (purgeA 2 (str "two") (str "B")))

/-- The snapshot made there. -/
def renamedManifest : Manifest :=
  smallManifest (some (str "two")) none [smallEntry (str "b") (str "A")]

/-- The older version of a purged file is in the next snapshot, under another
name. -/
theorem older_version_returns : ¬ VersionsStayDead (versionCrates 2 (str "B")) ⟨[str "w"]⟩ := by
  intro h
  obtain ⟨report, hpurge⟩ := exists_of_succeeded (r := purgeA 2 (str "two") (str "B"))
    (by decide +kernel)
  obtain ⟨r, hrel, hname⟩ : ∃ r, sanitizeRel (str "a") = .ok r ∧ Purge.nameIn r = str "a" :=
    ⟨_, rfl, by decide +kernel⟩
  have hreal : Store.Real ⟨[str "w"]⟩ (versionFabric (str "two") (str "B")) :=
    Store.Real.of_keys (by decide +kernel) (by decide +kernel)
  have hledger : Ledger ⟨[str "w"]⟩ (versionFabric (str "two") (str "B")) :=
    ⟨[], Or.inl ⟨by decide +kernel, rfl⟩, Or.inl rfl⟩
  have since : Runs (versionCrates 2 (str "B")) ⟨[str "w"]⟩
      (KeepsLedger (versionCrates 2 (str "B")) ⟨[str "w"]⟩)
      (finalState (purgeA 2 (str "two") (str "B"))) renamed :=
    .edit .start (remake_outside (by decide) _)
  have hdead := h id (str "a") r report _ _ _ (.snap [] none) hreal hledger hrel hpurge since
    keepsLedger_snap
  rw [hname] at hdead
  have hlock := eq_ok_of_succeeded (r := Store.tryLock ⟨[str "w"]⟩ renamed) (by decide +kernel)
  have hbuild := eq_ok_of_yields (a := renamedManifest) (r := Snapshot.buildManifest
    (versionCrates 2 (str "B")).toCrates ⟨[str "w"]⟩ [str "w"] [] none
    (locked ⟨[str "w"]⟩ renamed)) (by decide +kernel)
  obtain ⟨id, hstore⟩ := exists_of_succeeded (r := Snapshot.storeManifest
    (versionCrates 2 (str "B")).toCrates ⟨[str "w"]⟩ renamedManifest
    (finalState (Snapshot.buildManifest (versionCrates 2 (str "B")).toCrates ⟨[str "w"]⟩ [str "w"]
      [] none (locked ⟨[str "w"]⟩ renamed)))) (by decide +kernel)
  have hload : Snapshot.load (versionCrates 2 (str "B")).toCrates ⟨[str "w"]⟩
      (versionFabric (str "two") (str "B")) (padHash (str "one")) =
      .ok (smallManifest none none [smallEntry (str "a") (str "A")]) :=
    eq_ok_of_toOption (by decide +kernel)
  refine hdead renamedManifest ⟨_, _, _, _, id, _, .snap hlock, hbuild, hstore⟩
    (padHash (str "A")) ⟨_, _, hload, _, List.mem_singleton_self _, rfl, rfl⟩ ?_
    (smallEntry (str "b") (str "A")) (List.mem_singleton_self _) rfl
  intro helsewhere
  obtain ⟨id', mf, hload', fe, hfe, hpath, _⟩ := helsewhere
  have hpaths : ∀ mf ∈ (versions.take 2).map Prod.snd, ∀ fe ∈ mf.files,
      fe.path = str "a" := by decide +kernel
  exact hpath (hpaths mf (mem_versions_of_load hload') fe hfe)

end Cli

end Respawn
