import Respawn.Crash
import Respawn.Runs

/-!
# Tombstones are enforced

A tombstone is a line of `.respawn/purged.jsonl`.  `create` leaves out what has
one and `apply` refuses it, so a tombstone is enforced as long as its line
stands.  Purges append lines; the other commands leave the file alone, with two
exceptions: `revert --actor` removes the paths of the actor wherever they lie,
and `purge` removes the file its path leads to.  A run in which neither hits the
file of tombstones enforces every tombstone it records (`tombstones_enforced`);
a pulled history whose actor touched that file undoes one (`actor_unearths`).
-/

namespace Respawn

open ByteStr FileTree StateLogic

/-! ## The file of tombstones -/

variable {X : Crates} {st : Store} {t : Tombstone} {fs fs' : Fs} {m s : Machine}

/-- The file of tombstones is a text of whole lines, if there is one. -/
def Ledger (st : Store) (fs : Fs) : Prop :=
  ∃ text, fs.HasText (tombstonePath st) text ∧ Lined text

/-- The tombstone is recorded. -/
def Recorded (X : Crates) (st : Store) (t : Tombstone) (fs : Fs) : Prop :=
  ∃ tombs, tombstones X st fs = .ok tombs ∧ t ∈ tombs

/-- A line says this tombstone. -/
def Says (X : Crates) (t : Tombstone) (line : Bytes) : Prop :=
  trim line ≠ [] ∧ X.tombstoneOfJson (trim line) = .ok t

/-- A line of the file of tombstones says the tombstone. -/
def Buried (X : Crates) (st : Store) (t : Tombstone) (fs : Fs) : Prop :=
  ∃ text, fs.HasText (tombstonePath st) text ∧ Lined text ∧ ∃ line ∈ fileLines text, Says X t line

/-- What is parsed is what the lines say. -/
theorem mem_parseTombstones {i : Nat} {lines : List Bytes} {tombs : List Tombstone}
    (h : parseTombstones X i lines = .ok tombs) : t ∈ tombs ↔ ∃ line ∈ lines, Says X t line := by
  induction lines generalizing i tombs with
  | nil =>
      cases h
      simp
  | cons line rest ih =>
      unfold parseTombstones at h
      by_cases hblank : trim line = []
      · rw [if_pos hblank] at h
        rw [ih h]
        simp [Says, hblank]
      · rw [if_neg hblank] at h
        cases hjson : X.tombstoneOfJson (trim line) with
        | error e =>
            rw [hjson] at h
            cases h
        | ok t' =>
            rw [hjson] at h
            simp only at h
            cases hrest : parseTombstones X (i + 1) rest with
            | error e =>
                rw [hrest] at h
                cases h
            | ok out =>
                rw [hrest] at h
                cases h
                rw [List.mem_cons, ih hrest]
                have hfirst : Says X t line ↔ t = t' := by
                  simp only [Says, hjson, Except.ok.injEq, ne_eq, hblank, not_false_eq_true,
                    true_and, eq_comm]
                simp only [List.mem_cons, or_and_right, exists_or, exists_eq_left, hfirst]

/-- The text of the file is what is parsed. -/
theorem parse_of_tombstones {text : Bytes} {tombs : List Tombstone} (hreal : st.Real fs)
    (htext : fs.HasText (tombstonePath st) text) (h : tombstones X st fs = .ok tombs) :
    parseTombstones X 0 (fileLines text) = .ok tombs := by
  have hnames := Purge.record_names hreal (n := str "purged.jsonl") (by decide)
  unfold tombstones at h
  rcases htext with ⟨hnone, rfl⟩ | ⟨d, hd, rfl⟩
  · cases hread : fs.readToString (tombstonePath st) with
    | ok s =>
        obtain ⟨d, hd, _⟩ :=
          (hreal.readToString_eq_ok (List.prefix_append _ _) hnames).mp hread
        rw [show fs.get (st.fabricDir ++ [str "purged.jsonl"]) = none from hnone] at hd
        cases hd
    | error e =>
        rw [hread] at h
        cases e <;> first | exact h | cases h
  · unfold Fs.readToString at h
    rw [Fs.read_of_get hd] at h
    simp only at h
    by_cases hutf8 : validUtf8 d.bytes = true
    · rw [if_pos hutf8] at h
      exact h
    · rw [if_neg hutf8] at h
      cases h

/-- **A line that stands is read**, if the file is. -/
theorem Buried.mem {tombs : List Tombstone} (h : Buried X st t fs) (hreal : st.Real fs)
    (htombs : tombstones X st fs = .ok tombs) : t ∈ tombs := by
  obtain ⟨text, htext, _, hline⟩ := h
  exact (mem_parseTombstones (parse_of_tombstones hreal htext htombs)).mpr hline

/-- What is recorded in whole lines is a line. -/
theorem Recorded.buried (h : Recorded X st t fs) (hreal : st.Real fs) (hledger : Ledger st fs) :
    Buried X st t fs := by
  obtain ⟨tombs, htombs, ht⟩ := h
  obtain ⟨text, htext, hlined⟩ := hledger
  exact ⟨text, htext, hlined,
    (mem_parseTombstones (parse_of_tombstones hreal htext htombs)).mp ht⟩

/-- The file of tombstones is as it was, or a line was appended. -/
def LedgerGrows (st : Store) (fs fs' : Fs) : Prop :=
  fs'.get (tombstonePath st) = fs.get (tombstonePath st) ∨
    ∃ text line, fs.HasText (tombstonePath st) text ∧
      fs'.HasText (tombstonePath st) (text ++ (line ++ [10]))

/-- A file has one text. -/
theorem hasText_unique {p : Path} {a b : Bytes} (h : fs.HasText p a) (h' : fs.HasText p b) :
    a = b := by
  rcases h with ⟨hnone, rfl⟩ | ⟨d, hd, rfl⟩
  · rcases h' with ⟨_, rfl⟩ | ⟨d', hd', _⟩
    · rfl
    · rw [hnone] at hd'
      cases hd'
  · rcases h' with ⟨hnone, _⟩ | ⟨d', hd', rfl⟩
    · rw [hnone] at hd
      cases hd
    · cases hd.symm.trans hd'
      rfl

/-- A ledger that grows stays a ledger. -/
theorem Ledger.grow (h : Ledger st fs) (hgrows : LedgerGrows st fs fs') : Ledger st fs' := by
  obtain ⟨text, htext, hlined⟩ := h
  rcases hgrows with hsame | ⟨_, line, _, htext'⟩
  · refine ⟨text, ?_, hlined⟩
    unfold Fs.HasText
    rw [hsame]
    exact htext
  · exact ⟨_, htext', lined_append _ _⟩

/-- **A line stands** while the file grows. -/
theorem Buried.grow (h : Buried X st t fs) (hgrows : LedgerGrows st fs fs') :
    Buried X st t fs' := by
  obtain ⟨text, htext, hlined, line, hline, hsays⟩ := h
  rcases hgrows with hsame | ⟨text', added, htext', hgrown⟩
  · refine ⟨text, ?_, hlined, line, hline, hsays⟩
    unfold Fs.HasText
    rw [hsame]
    exact htext
  · cases hasText_unique htext htext'
    refine ⟨_, hgrown, lined_append _ _, line, ?_, hsays⟩
    rw [fileLines_lined hlined]
    exact List.mem_append_left _ hline

/-! ## What a standing line does -/

/-- Nothing in a list of entries that passes the check has a tombstone. -/
theorem Revert.unpurged_of_check {tombs : List Tombstone} {files : List FileEntry}
    (h : checkTombstones tombs files = .ok ()) :
    ∀ fe ∈ files, ∀ t ∈ tombs, t.path ≠ fe.path ∧ t.content ≠ hashHex fe.content := by
  induction files with
  | nil => simp
  | cons fe rest ih =>
      unfold checkTombstones at h
      split at h
      · cases h
      case _ hnone =>
        intro fe' hfe' t ht
        rcases List.mem_cons.mp hfe' with rfl | hin
        · simp only [List.any_eq_true, decide_eq_true_eq, not_exists, not_and, not_or] at hnone
          exact hnone t ht
        · exact ih h fe' hin t ht

/-- **A snapshot leaves out** what has a tombstone. -/
theorem Snapshot.unlisted_of_build {message : Bytes} {actor : Option Bytes} {mf : Manifest}
    {s₁ : Machine} (hreal : st.Real s.fs) (h : Buried X st t s.fs)
    (hbuild : buildManifest X st st.root message actor s = .ok mf s₁) :
    ∀ fe ∈ mf.files, fe.path ≠ t.path ∧ hashHex fe.content ≠ t.content := by
  have hafter : After (buildManifest X st st.root message actor s) _ _ :=
    buildManifest_after hreal
  obtain ⟨tombs, htombs, hfiles, _, _⟩ := hafter.ok hbuild
  have ht := h.mem hreal htombs
  intro fe hfe
  rw [hfiles] at hfe
  obtain ⟨rel, _, hcaptured⟩ := List.mem_filterMap.mp hfe
  obtain ⟨d, _, hscanned, hcontent, rfl⟩ := captured_eq_some.mp hcaptured
  refine ⟨?_, fun heq => hcontent t ht heq.symm⟩
  intro heq
  simp only [scanned, Bool.and_eq_true, Bool.not_eq_true', List.any_eq_false,
    decide_eq_true_eq] at hscanned
  exact hscanned.2 t ht heq.symm

/-- A file of the worktree is the one it was, or has another content than the
tombstone's. -/
def Unwritten (X : Crates) (st : Store) (t : Tombstone) (fs₀ fs : Fs) : Prop :=
  ∀ q d, ¬ st.fabricDir <+: q → fs.get q = some (.file d) →
    fs₀.get q = some (.file d) ∨ hashHex (X.blake3 d.bytes) ≠ t.content

/-- **A revert writes nothing** that has a tombstone, not for a moment. -/
theorem Revert.apply_unwritten {mf : Manifest} {keepExtra : Bool} (hreal : st.Real s.fs)
    (h : Buried X st t s.fs) :
    Throughout (Unwritten X st t s.fs) s (finalState (apply X st st.root mf keepExtra s)) := by
  cases hcheck : precheck X st mf s.fs with
  | error e =>
      have hstop : apply X st st.root mf keepExtra s = .error e s := by
        unfold apply
        rw [bind_apply, look_eq_error.mpr ⟨hcheck, rfl⟩]
      rw [hstop]
      exact Throughout.refl fun _ _ _ hd => Or.inl hd
  | ok u =>
      have hunpurged : ∀ fe ∈ mf.files, t.content ≠ hashHex fe.content := by
        unfold precheck at hcheck
        split at hcheck
        · cases hcheck
        · split at hcheck
          · cases hcheck
          case _ tombs htombs =>
            intro fe hfe
            exact (unpurged_of_check hcheck fe hfe t (h.mem hreal htombs)).2
      have hroot : s.fs.get st.root = some .dir :=
        Fs.dir_of_prefix hreal.dir (List.prefix_append _ _)
      have hleaves : ∀ p, ¬ st.fabricDir <+: p → Throughout (fun fs => fs.leaf p = s.fs.leaf p ∨
          (∃ fe ∈ mf.files, destination st.root fe = some p ∧ Holds X fs p fe.content) ∨
          fs.leaf p = none) s (finalState (apply X st st.root mf keepExtra s)) :=
        fun p hp => apply_leaves hroot (not_isOwnTmp_of_real hreal hp)
      have hnil : ¬ st.fabricDir <+: [] := by
        intro hpre
        have hlen := hpre.length_le
        simp [Store.fabricDir] at hlen
      refine ⟨(hleaves [] hnil).ran, ?_⟩
      intro evs hevs q d hq hd
      have hleaf := (Fs.leaf_eq_some _).mpr ⟨hd, by simp⟩
      rcases (hleaves q hq).holds evs hevs with heq | ⟨fe, hfe, _, d', hd', hhash⟩ | hnone
      · exact Or.inl ((Fs.leaf_eq_some _).mp (heq ▸ hleaf)).1
      · right
        rw [hleaf] at hd'
        cases hd'
        rw [hhash]
        exact (hunpurged fe hfe).symm
      · rw [hleaf] at hnone
        cases hnone

/-- What the JSON encoder promises of a tombstone: one line of text that reads
back. -/
structure TombEncodes (X : Crates) (t : Tombstone) : Prop where
  decode : X.tombstoneOfJson (trim (X.tombstoneToJson t)) = .ok t
  oneLine : 10 ∉ X.tombstoneToJson t
  noCr : (X.tombstoneToJson t).getLast? ≠ some 13
  ink : trim (X.tombstoneToJson t) ≠ []

/-- The line of a tombstone stands once it is appended. -/
theorem buried_of_appended {text : Bytes} (hencodes : TombEncodes X t) (hlined : Lined text)
    (htext : fs.HasText (tombstonePath st) (text ++ (X.tombstoneToJson t ++ [10]))) :
    Buried X st t fs := by
  refine ⟨_, htext, lined_append _ _, X.tombstoneToJson t, ?_, hencodes.ink, hencodes.decode⟩
  have hcr : stripCr (X.tombstoneToJson t) = X.tombstoneToJson t := if_neg hencodes.noCr
  rw [fileLines_lined hlined, fileLines_append hencodes.oneLine, hcr]
  exact List.mem_append_right _ List.mem_cons_self

/-- **What a purge does to the file of tombstones**, unless the path it is given
leads there: when it succeeds it has appended its tombstone. -/
theorem Purge.run_ledger {order : List Hash → List Hash} {rel : Bytes} (hreal : st.Real m.fs)
    (hlive : ∀ r, sanitizeRel rel = .ok r →
      m.fs.resolve false (r.under st.root) ≠ .ok (tombstonePath st)) :
    After (run X st order st.root rel m)
      (fun _ m' => st.Real m'.fs ∧ ∃ p text, plan X st st.root rel m.fs = .ok p ∧
        m.fs.HasText (tombstonePath st) text ∧ m'.fs.HasText (tombstonePath st)
          (text ++ (X.tombstoneToJson (tombstone X p (unixSecs m.clock)) ++ [10])))
      (fun _ m' => st.Real m'.fs ∧ LedgerGrows st m.fs m'.fs) := by
  unfold run
  apply after_look_bind
  · intro p hplan
    obtain ⟨hrel, _⟩ := plan_eq_ok hplan
    obtain ⟨text, htext⟩ := hasText_of_plan hreal hplan
    have hsweep : After (sweep st p.elsewhere (order p.chunks) (0, 0) m) _ _ := sweep_after hreal
    rw [bind_apply]
    cases hswept : sweep st p.elsewhere (order p.chunks) (0, 0) m with
    | error e m₁ =>
        obtain ⟨pre, h, post, _, hpart, _⟩ := hsweep.error hswept
        exact ⟨hpart.touched.real, Or.inl hpart.tombstones_eq⟩
    | ok counts m₁ =>
        obtain ⟨hdone, hran⟩ := hsweep.ok hswept
        have hclock : m₁.clock = m.clock := hran.events.1
        have htext₁ := hdone.hasText htext
        -- the line stands unless the live file is in its place
        have hinterred : ∀ {line : Bytes} {mid fs' : Fs},
            Interred st (p.rel.under st.root) text line m₁.fs mid fs' →
            fs'.HasText (tombstonePath st) (text ++ (line ++ [10])) := by
          intro line mid fs' h
          obtain ⟨d, hd, hbytes⟩ := h.written
          rcases h.after _ tombstonePath_not_aside with heq | ⟨hres, _⟩
          · exact Or.inr ⟨d, heq.trans hd, hbytes⟩
          · have hshape := (hdone.sameShape hreal).trans (sameShape_of_buried htext₁ hd h.before)
            exact absurd (Fs.resolve_shape hshape.symm hres) (hlive _ hrel)
        have hfinish : After (finish X st st.root p counts m₁) _ _ :=
          finish_after hdone.touched.real htext₁
        apply hfinish.mono
        · intro _ m₂ h
          obtain ⟨mid, fs₃, h, hlog⟩ := h
          refine ⟨hlog.real, p, text, hplan, htext, ?_⟩
          have hsame : m₂.fs.get (tombstonePath st) = fs₃.get (tombstonePath st) := by
            apply hlog.frame
            intro heq
            exact absurd (List.append_cancel_left heq) (by decide)
          unfold Fs.HasText
          rw [hsame, ← hclock]
          exact hinterred h
        · intro _ m₂ h
          obtain ⟨mid, h⟩ := h
          exact ⟨h.real, Or.inr ⟨text, _, htext, hinterred h⟩⟩
  · intro _ _
    exact ⟨hreal, Or.inl rfl⟩

/-- **A purge that succeeds** has buried its tombstone, and those before it
still stand. -/
theorem Purge.run_buries {order : List Hash → List Hash} {rel : Bytes} {report : PurgeReport}
    {m' : Machine} (hencodes : ∀ p, plan X st st.root rel m.fs = .ok p →
      TombEncodes X (tombstone X p (unixSecs m.clock))) (hreal : st.Real m.fs)
    (hledger : Ledger st m.fs) (hlive : ∀ r, sanitizeRel rel = .ok r →
      m.fs.resolve false (r.under st.root) ≠ .ok (tombstonePath st))
    (hrun : run X st order st.root rel m = .ok report m') :
    st.Real m'.fs ∧ LedgerGrows st m.fs m'.fs ∧
      ∃ p, plan X st st.root rel m.fs = .ok p ∧
        Buried X st (tombstone X p (unixSecs m.clock)) m'.fs := by
  have hafter : After (run X st order st.root rel m) _ _ := run_ledger hreal hlive
  obtain ⟨hreal', p, text, hplan, htext, hgrown⟩ := hafter.ok hrun
  refine ⟨hreal', Or.inr ⟨text, _, htext, hgrown⟩, p, hplan, ?_⟩
  obtain ⟨text', htext', hlined⟩ := hledger
  cases hasText_unique htext htext'
  exact buried_of_appended (hencodes p hplan) hlined hgrown

/-! ## Commands -/

namespace Cli

variable {F : FleetCrates} {c : Command}

/-- Everything but the file of tombstones. -/
theorem covers_ledger : Covers st (· ≠ tombstonePath st) := by
  refine ⟨?_, ?_, ?_⟩
  · intro q hq heq
    exact hq (heq ▸ List.prefix_append _ _)
  · intro q hq heq
    subst heq
    have hsame := hq.eq_of_length (by simp [tombstonePath, Revert.tmpDir])
    exact absurd (List.append_cancel_left hsame) (by decide)
  · intro q hq heq
    subst heq
    exact Store.not_within (by decide) (by decide) hq

/-- What the command is asked to do lies outside the fabric: the manifests it
applies, the path it purges and the files of the program it guards. -/
structure Allowed (F : FleetCrates) (st : Store) (c : Command) (m : Machine) : Prop
    extends Decent F st c m where
  purged : ∀ order rel r, c = .purge order rel → sanitizeRel rel = .ok r →
    ¬ st.fabricDir <+: st.root ++ r.comps

/-- The command removes no file in the place of the tombstones: neither as the
path of an actor, nor as the file that the path to purge leads to. -/
structure SparesLedger (F : FleetCrates) (st : Store) (c : Command) (m : Machine) : Prop where
  actor : ∀ p, Removes F st c m p → ¬ Spells st.root p (tombstonePath st)
  live : ∀ order rel r s, c = .purge order rel → st.tryLock m = .ok () s →
    sanitizeRel rel = .ok r → s.fs.resolve false (r.under st.root) ≠ .ok (tombstonePath st)

/-- The command leaves the place of the tombstones alone, whatever else it
touches in the fabric: no entry that is applied lies there either. -/
structure KeepsLedger (F : FleetCrates) (st : Store) (c : Command) (m : Machine) : Prop
    extends SparesLedger F st c m where
  applied : ∀ s mf keepExtra, Applies F st c m s mf keepExtra →
    ∀ fe ∈ mf.files, Revert.destination st.root fe ≠ some (tombstonePath st)
  guarded : ∀ argv policy fullDrift child m₁ m₂ before left mf snap status,
    c = .guard argv policy fullDrift child →
    Guard.Phases F.toCrates st argv child m m₁ m₂ before left mf snap status →
    ∀ q, st.fabricDir <+: q → left.fs.get q = before.fs.get q

theorem bounded_of_allowed (h : Allowed F st c m) (hspares : SparesLedger F st c m) :
    Bounded F st (· ≠ tombstonePath st) c m :=
  h.toDecent.bounded covers_ledger fun p hp _ hq heq => hspares.actor p hp (heq ▸ hq)

/-- While a tombstone stands no directory can be made in its place. -/
theorem KeepsLedger.bounded (h : KeepsLedger F st c m) (hburied : Buried X st t m.fs) :
    Bounded F st (· ≠ tombstonePath st) c m := by
  refine ⟨?_, ?_, fun p hp _ hq heq => h.actor p hp (heq ▸ hq)⟩
  · intro s mf keepExtra happlies htouched q hq heq
    subst heq
    rcases hq with hout | htmp | ⟨fe, hfe, dest, hdest, hat | ⟨_, hnone⟩⟩
    · exact hout (List.prefix_append _ _)
    · exact covers_ledger.tmp _ htmp rfl
    · exact h.applied s mf keepExtra happlies fe hfe (hat ▸ hdest)
    · rw [htouched.frame _ (not_not.mpr rfl)] at hnone
      obtain ⟨text, htext, _, line, hline, _⟩ := hburied
      rcases htext with ⟨_, rfl⟩ | ⟨d, hd, _⟩
      · exact absurd hline List.not_mem_nil
      · rw [hd] at hnone
        cases hnone
  · intro argv policy fullDrift child m₁ m₂ before left mf snap status hguard hphases hreal
    exact touched_of_outside covers_ledger.outside hreal
      (h.guarded argv policy fullDrift child m₁ m₂ before left mf snap status hguard hphases)

/-- A purge appends a line to the file of tombstones, or leaves it alone. -/
theorem purge_grows {order : List Hash → List Hash} {rel : Bytes} (hreal : st.Real m.fs)
    (hspares : ∀ r s, st.tryLock m = .ok () s → sanitizeRel rel = .ok r →
      s.fs.resolve false (r.under st.root) ≠ .ok (tombstonePath st)) :
    st.Real ((Command.purge order rel).after F st m).fs ∧
      LedgerGrows st m.fs ((Command.purge order rel).after F st m).fs := by
  apply After.final (P := fun m' : Machine => st.Real m'.fs ∧ LedgerGrows st m.fs m'.fs)
  unfold Cli.purge
  rw [bind_apply]
  cases hlock : st.tryLock m with
  | error e m₁ =>
      have h₁ := (covers_ledger.lock m hreal).error hlock
      exact ⟨h₁.real, Or.inl (h₁.frame _ (not_not.mpr rfl))⟩
  | ok u m₁ =>
      have h₁ := (covers_ledger.lock m hreal).ok hlock
      have hsame := h₁.frame _ (not_not.mpr rfl)
      have hrun : After (Purge.run F.toCrates st order st.root rel m₁) _ _ :=
        Purge.run_ledger h₁.real fun r hrel => hspares r m₁ hlock hrel
      apply hrun.mono
      · intro _ m₂ h
        obtain ⟨hreal₂, p, text, _, htext, hgrown⟩ := h
        refine ⟨hreal₂, Or.inr ⟨text, _, ?_, hgrown⟩⟩
        unfold Fs.HasText at htext ⊢
        rw [← hsame]
        exact htext
      · intro _ m₂ h
        obtain ⟨hreal₂, heq | ⟨text, line, htext, hgrown⟩⟩ := h
        · exact ⟨hreal₂, Or.inl (heq.trans hsame)⟩
        · refine ⟨hreal₂, Or.inr ⟨text, line, ?_, hgrown⟩⟩
          unfold Fs.HasText at htext ⊢
          rw [← hsame]
          exact htext

/-- **One command** only adds to the file of tombstones. -/
theorem after_grows (hreal : st.Real m.fs) (hc : Bounded F st (· ≠ tombstonePath st) c m)
    (hspares : SparesLedger F st c m) :
    st.Real (c.after F st m).fs ∧ LedgerGrows st m.fs (c.after F st m).fs := by
  by_cases hpurge : ∃ order rel, c = .purge order rel
  · obtain ⟨order, rel, rfl⟩ := hpurge
    exact purge_grows hreal fun r s hlock hrel => hspares.live order rel r s rfl hlock hrel
  · have htouched := after_touched covers_ledger hreal hc
      fun order rel heq => hpurge ⟨order, rel, heq⟩
    exact ⟨htouched.real, Or.inl (htouched.frame _ (not_not.mpr rfl))⟩

/-- Edits outside the fabric leave its records alone. -/
theorem real_of_outside (hreal : st.Real fs)
    (h : ∀ q, st.fabricDir <+: q → fs'.get q = fs.get q) : st.Real fs' :=
  (touched_of_outside (S := fun q => ¬ st.fabricDir <+: q) (fun _ hq => hq) hreal h).real

theorem grows_of_outside (h : ∀ q, st.fabricDir <+: q → fs'.get q = fs.get q) :
    LedgerGrows st fs fs' := Or.inl (h _ (List.prefix_append _ _))

variable {P : Command → Machine → Prop} {m₀ m₁ m₂ : Machine}

/-- What holds of a real fabric and lasts while the file of tombstones grows
lasts over a run. -/
theorem Runs.keeps {I : Fs → Prop} (hgrow : ∀ {fs fs'}, I fs → LedgerGrows st fs fs' → I fs')
    (hP : ∀ c m, P c m → I m.fs → Bounded F st (· ≠ tombstonePath st) c m ∧ SparesLedger F st c m)
    (run : Runs F st P m₀ m) (hreal : st.Real m₀.fs) (hI : I m₀.fs) : st.Real m.fs ∧ I m.fs := by
  induction run with
  | start => exact ⟨hreal, hI⟩
  | command c run hc ih =>
      obtain ⟨hbounded, hspares⟩ := hP _ _ hc ih.2
      obtain ⟨hreal', hgrows⟩ := after_grows ih.1 hbounded hspares
      exact ⟨hreal', hgrow ih.2 hgrows⟩
  | edit run houtside ih =>
      exact ⟨real_of_outside ih.1 houtside, hgrow ih.2 (grows_of_outside houtside)⟩

/-- The command makes no manifest with the path or the content of the tombstone,
and writes no file with the content into the worktree. -/
structure Enforced (F : FleetCrates) (st : Store) (t : Tombstone) (c : Command) (m : Machine) :
    Prop where
  committed : ∀ mf, Commits F st c m mf →
    ∀ fe ∈ mf.files, fe.path ≠ t.path ∧ hashHex fe.content ≠ t.content
  written : ∀ s mf keepExtra, Applies F st c m s mf keepExtra →
    Throughout (Unwritten F.toCrates st t s.fs) s
      (finalState (Revert.apply F.toCrates st st.root mf keepExtra s))

/-- **A tombstone that stands is enforced** by a command that leaves its place
alone. -/
theorem enforced_of_buried (hreal : st.Real m.fs) (hburied : Buried F.toCrates st t m.fs)
    (hc : Bounded F st (· ≠ tombstonePath st) c m) : Enforced F st t c m := by
  have hstands : ∀ {s : Machine}, st.Touched (· ≠ tombstonePath st) m.fs s.fs →
      Buried F.toCrates st t s.fs := fun h =>
    hburied.grow (Or.inl (h.frame _ (not_not.mpr rfl)))
  refine ⟨?_, ?_⟩
  · intro mf hcommits
    obtain ⟨s, message, actor, s₁, id, s', hcreates, hbuild, _⟩ := hcommits
    have htouched := creates_touched covers_ledger hreal hc hcreates
    exact Snapshot.unlisted_of_build htouched.real (hstands htouched) hbuild
  · intro s mf keepExtra happlies
    have htouched := applies_touched covers_ledger hreal hc happlies
    exact Revert.apply_unwritten htouched.real (hstands htouched)

/-- **Recorded tombstones are enforced** in every run that removes no file in
their place. -/
theorem tombstones_enforced {c : Command} (hreal : st.Real m₀.fs) (hledger : Ledger st m₀.fs)
    (before : Runs F st (fun c m => Allowed F st c m ∧ SparesLedger F st c m) m₀ m₁)
    (hrecorded : Recorded F.toCrates st t m₁.fs)
    (since : Runs F st (fun c m => Allowed F st c m ∧ SparesLedger F st c m) m₁ m₂)
    (hc : Allowed F st c m₂ ∧ SparesLedger F st c m₂) : Enforced F st t c m₂ := by
  obtain ⟨hreal₁, hledger₁⟩ := before.keeps (fun h => h.grow)
    (fun _ _ h _ => ⟨bounded_of_allowed h.1 h.2, h.2⟩) hreal hledger
  obtain ⟨hreal₂, hburied⟩ := since.keeps (fun h => h.grow)
    (fun _ _ h _ => ⟨bounded_of_allowed h.1 h.2, h.2⟩) hreal₁
    (hrecorded.buried hreal₁ hledger₁)
  exact enforced_of_buried hreal₂ hburied (bounded_of_allowed hc.1 hc.2)

/-! ## Small runs -/

/-- A tombstone for the file `a` with the content `A`. -/
def smallTomb : Tombstone :=
  { path := str "a", content := hashHex (padHash (str "A")), purgeId := str "p", ts := 0 }

/-- A history from a peer: the actor `bot` had a file in the place of the
tombstones, and an empty snapshot was made on it. -/
def unearthing : List (Bytes × Manifest) :=
  [(str "one", smallManifest none (some (str "bot"))
      [smallEntry (str ".respawn/purged.jsonl") (str "x")]),
   (str "two", smallManifest (some (str "one")) none [])]

def erasureCrates : FleetCrates :=
  { Fleet.fleetCrates with
    toCrates := smallCrates unearthing [] [(str "tomb", smallTomb)] }

/-- A fabric with the tombstone, and the empty snapshot of that history as HEAD. -/
def unearthedFabric : Fs :=
  Fs.build (Store.fabricNodes ⟨[str "w"]⟩ (hashHex (padHash (str "two"))) ++
    Store.blobNodes ⟨[str "w"]⟩ (str "manifests") (padHash (str "one")) (str "one") ++
    Store.blobNodes ⟨[str "w"]⟩ (str "manifests") (padHash (str "two")) (str "two") ++
    [(tombstonePath ⟨[str "w"]⟩, Store.plainFile (str "tomb" ++ [10]))])

theorem unearthedFabric_real : Store.Real ⟨[str "w"]⟩ unearthedFabric :=
  Store.Real.of_keys (by decide +kernel) (by decide +kernel)

theorem unearthedFabric_ledger : Ledger ⟨[str "w"]⟩ unearthedFabric :=
  ⟨str "tomb" ++ [10], Or.inr ⟨⟨str "tomb" ++ [10], defaultMode, 0⟩, by decide +kernel, rfl⟩,
    Or.inr ⟨str "tomb", rfl⟩⟩

theorem unearthedFabric_recorded :
    Recorded erasureCrates.toCrates ⟨[str "w"]⟩ smallTomb unearthedFabric :=
  ⟨[smallTomb], eq_ok_of_toOption (by decide +kernel), by simp⟩

/-- A file of the worktree is made with this content. -/
def remake (name : Name) (content : Bytes) (m : Machine) : Machine :=
  let made := m.fs.exec (.create [str "w", name] defaultMode 0)
  { m with fs := made.modifyFile [str "w", name] fun d => { d with bytes := content } }

/-- The file is made again outside the fabric. -/
theorem remake_outside {name : Name} {content : Bytes} (hname : name ≠ FABRIC_DIR) (m : Machine)
    (q : Path) (hq : Store.fabricDir ⟨[str "w"]⟩ <+: q) :
    (remake name content m).fs.get q = m.fs.get q := by
  have hne : q ≠ [str "w", name] := by
    intro heq
    have hdir : [str "w", FABRIC_DIR] <+: [str "w", name] := heq ▸ hq
    have hsame := hdir.eq_of_length rfl
    exact hname (List.cons.inj (List.cons.inj hsame).2).1.symm
  have hmade : q ∉ (Event.create [str "w", name] defaultMode 0).paths := fun hmem =>
    hne (List.mem_singleton.mp hmem)
  exact (Fs.get_modifyFile_of_ne hne _).trans (Fs.get_exec_of_not_mem hmade)

/-- A snapshot is always allowed, and spares the file of tombstones. -/
theorem allowed_snap {message : Bytes} {actor : Option Bytes} :
    Allowed F st (.snap message actor) m ∧ SparesLedger F st (.snap message actor) m := by
  refine ⟨⟨⟨?_, ?_⟩, ?_⟩, ⟨?_, ?_⟩⟩
  · intro s mf keepExtra happlies
    cases happlies
  · intro _ _ _ _ _ _ _ _ _ _ _ heq
    cases heq
  · intro _ _ _ heq
    cases heq
  · intro p hremoves
    obtain ⟨_, _, _, _, _, _, _, _, heq, _⟩ := hremoves
    cases heq
  · intro _ _ _ _ heq
    cases heq

/-- The purged file is made again, and the snapshot leaves it out. -/
theorem tombstones_enforced_remade :
    Enforced erasureCrates ⟨[str "w"]⟩ smallTomb (.snap [] none)
      (remake (str "a") (str "A") (Machine.start unearthedFabric)) := by
  have before : Runs erasureCrates ⟨[str "w"]⟩ (fun c m => Allowed erasureCrates ⟨[str "w"]⟩ c m ∧
      SparesLedger erasureCrates ⟨[str "w"]⟩ c m) (Machine.start unearthedFabric)
      (Machine.start unearthedFabric) := .start
  exact tombstones_enforced unearthedFabric_real unearthedFabric_ledger before
    unearthedFabric_recorded (.edit .start (remake_outside (by decide) _)) allowed_snap

/-- Recorded tombstones are enforced in every run whose commands are asked only
for what lies outside the fabric. -/
def EnforcedAlways (F : FleetCrates) (st : Store) : Prop :=
  ∀ (m₀ m₁ m₂ : Machine) (t : Tombstone) (c : Command), st.Real m₀.fs → Ledger st m₀.fs →
    Runs F st (Allowed F st) m₀ m₁ → Recorded F.toCrates st t m₁.fs →
    Runs F st (Allowed F st) m₁ m₂ → Allowed F st c m₂ → Enforced F st t c m₂

/-- `revert --actor bot` there. -/
abbrev unearth : Command := .revertActor (str "bot") false

/-- What `bot` did is undone by an empty manifest. -/
theorem allowed_unearth :
    Allowed erasureCrates ⟨[str "w"]⟩ unearth (Machine.start unearthedFabric) := by
  refine ⟨⟨?_, ?_⟩, ?_⟩
  · intro s mf keepExtra happlies
    cases happlies with
    | revertActor hlock hplan hpasses =>
        have hempty : ((Revert.surgicalManifest erasureCrates.toCrates ⟨[str "w"]⟩ (str "bot")
            (locked ⟨[str "w"]⟩ (Machine.start unearthedFabric)).fs).toOption.map
              fun r => r.1.files) = some [] := by decide +kernel
        unfold locked at hempty
        rw [hlock] at hempty
        simp only [finalState, hplan, Except.toOption, Option.map_some, Option.some.injEq] at hempty
        intro fe hfe
        rw [hempty] at hfe
        exact absurd hfe List.not_mem_nil
  · intro _ _ _ _ _ _ _ _ _ _ _ heq
    cases heq
  · intro _ _ _ heq
    cases heq

/-- The machine after it, with the purged file made again. -/
def unearthed : Machine :=
  remake (str "a") (str "A") (unearth.after erasureCrates ⟨[str "w"]⟩
    (Machine.start unearthedFabric))

/-- The snapshot made there. -/
def unearthedManifest : Manifest := smallManifest (some []) none [smallEntry (str "a") (str "A")]

/-- Undoing what an actor did removes the file of tombstones, and the purged
file is in the next snapshot. -/
theorem actor_unearths : ¬ EnforcedAlways erasureCrates ⟨[str "w"]⟩ := by
  intro h
  have hrun : Runs erasureCrates ⟨[str "w"]⟩ (Allowed erasureCrates ⟨[str "w"]⟩)
      (Machine.start unearthedFabric) unearthed :=
    .edit (.command unearth .start allowed_unearth) (remake_outside (by decide) _)
  have henforced := h _ _ _ smallTomb (.snap [] none) unearthedFabric_real
    unearthedFabric_ledger .start unearthedFabric_recorded hrun allowed_snap.1
  have hlock := eq_ok_of_succeeded (r := Store.tryLock ⟨[str "w"]⟩ unearthed) (by decide +kernel)
  have hbuild := eq_ok_of_yields (a := unearthedManifest) (r := Snapshot.buildManifest
    erasureCrates.toCrates ⟨[str "w"]⟩ [str "w"] [] none (locked ⟨[str "w"]⟩ unearthed))
    (by decide +kernel)
  obtain ⟨id, hstore⟩ := exists_of_succeeded (r := Snapshot.storeManifest erasureCrates.toCrates
    ⟨[str "w"]⟩ unearthedManifest (finalState (Snapshot.buildManifest erasureCrates.toCrates
      ⟨[str "w"]⟩ [str "w"] [] none (locked ⟨[str "w"]⟩ unearthed)))) (by decide +kernel)
  have hnot := henforced.committed unearthedManifest
    ⟨_, _, _, _, id, _, .snap hlock, hbuild, hstore⟩ (smallEntry (str "a") (str "A"))
    (by simp [unearthedManifest, smallManifest])
  exact hnot.1 rfl

end Cli

end Respawn
