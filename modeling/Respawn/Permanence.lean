import Respawn.AuditRun
import Respawn.Checkpoint
import Respawn.Completeness
import Respawn.Invariants
import Respawn.Obstacles
import Respawn.Payloads

/-!
# What commands never take back

Over any run of commands that leaves a record of the fabric to the program, the
record only grows: the audit log by entries that continue its chain, the
tombstones by lines, the manifests by files that were missing; the identity of
the fabric stays, and HEAD can be read.  So what was verified once is verified
ever after.

* `verified_lasts` — an anchor that passes `anchor verify`;
* `history_lasts` — the snapshots of a history, and their chunks but for a purge
  that sweeps them.
-/

namespace Respawn

open ByteStr FileTree StateLogic HashChain

namespace Cli

variable {F : FleetCrates} {st : Store} {m m₀ m₁ : Machine}

/-! ## The audit log -/

/-- The log is this one or continues it. -/
def LogGoesOn (F : FleetCrates) (st : Store) (es : List AuditEntry) (seen : List (Nat × Bytes))
    (m : Machine) : Prop :=
  st.Real m.fs ∧ ∃ more, Audit.Recorded F.toCrates st m (es ++ more) seen

/-- That the log goes on is said of the log alone. -/
theorem logGoesOn_framed {es : List AuditEntry} {seen : List (Nat × Bytes)} :
    Framed st (str "audit.jsonl") (LogGoesOn F st es seen) := by
  refine ⟨fun h => h.1, ?_⟩
  intro m m' h hreal hsame
  obtain ⟨_, more, hlog⟩ := h
  have htext := Audit.AuditGrown.logIs F.toCrates st hlog.grown
  refine ⟨hreal, more, hlog.elsewhere htext ⟨hreal.dir, ?_⟩⟩
  have hget : m'.fs.get (Audit.auditPath st) = m.fs.get (Audit.auditPath st) :=
    hsame _ ⟨[], rfl⟩
  have hlogText := htext.2
  unfold Fs.HasText at hlogText ⊢
  rw [hget]
  exact hlogText

/-- A recorded event continues the log, and it is always recorded. -/
theorem logGoesOn_record {es : List AuditEntry} {seen : List (Nat × Bytes)}
    (event detail : Bytes) :
    Keeps (LogGoesOn F st es seen) (Audit.record F.toCrates st event detail) := by
  intro m h
  obtain ⟨hreal, more, hlog⟩ := h
  have htouched := Audit.record_touching (X := F.toCrates) event detail m hreal
  obtain ⟨m', hrun⟩ : ∃ m', Audit.record F.toCrates st event detail m = .ok () m' :=
    Audit.record_succeeds (Audit.AuditGrown.logIs F.toCrates st hlog.grown)
  rw [hrun] at htouched ⊢
  refine ⟨htouched.real, more ++ [Audit.nextEntry F.toCrates st event detail m.fs m.clock], ?_⟩
  rw [← List.append_assoc]
  exact hlog.record hrun

/-- The log goes on through every command. -/
theorem logGoesOn_lasting (es : List AuditEntry) (seen : List (Nat × Bytes)) :
    Lasting F st (str "audit.jsonl") (LogGoesOn F st es seen) where
  toFramed := logGoesOn_framed
  aside := by decide
  create := fun _ _ => logGoesOn_framed.keeps (Snapshot.createFromActor_touching _ _)
    (by decide) (by decide)
  head := fun _ => logGoesOn_framed.keeps (Store.setHead_touching _) (by decide) (by decide)
  record := logGoesOn_record
  pull := fun _ _ => logGoesOn_framed.keeps (Sync.pull_touching _ _) (by decide) (by decide)
  accept := fun _ => logGoesOn_framed.accept F _ (by decide) (by decide)
  bury := fun _ _ => logGoesOn_framed.bury _ _ _ (by decide)
  certify := fun _ _ _ => logGoesOn_framed.certify _ _ _ _ (by decide)

/-- A log is at least as long as it has entries. -/
theorem length_le_logText (X : Crates) (es : List AuditEntry) :
    es.length ≤ (Audit.logText X es).length := by
  induction es with
  | nil => exact Nat.zero_le _
  | cons e rest ih =>
      have hcons : Audit.logText X (e :: rest) =
          X.auditToJson e ++ [10] ++ Audit.logText X rest := List.flatMap_cons
      rw [hcons]
      simp only [List.length_append, List.length_cons, List.length_nil]
      omega

/-- What begins a log begins every log that continues it. -/
theorem tipIsPrefix_goesOn {X : Crates} {es more : List AuditEntry} {seen : List (Nat × Bytes)}
    {n : Nat} {t : Bytes} (h₁ : Audit.Recorded X st m₁ es seen)
    (h : Audit.Recorded X st m (es ++ more) seen)
    (hcodec : ∀ e ∈ es ++ more, Audit.Encodes X e) (hlen : (es ++ more).length ≤ 2 ^ 64)
    (hbegins : Audit.tipIsPrefix X st n t m₁.fs = .ok ()) :
    Audit.tipIsPrefix X st n t m.fs = .ok () := by
  by_cases hzero : n = 0
  · unfold Audit.tipIsPrefix
    rw [if_pos hzero]
  · have hold : ∀ e ∈ es, Audit.Encodes X e := fun e he => hcodec e (List.mem_append_left _ he)
    have hlines : Audit.entryLines (Audit.logLines st m₁.fs) = es.map X.auditToJson := by
      rw [Audit.logLines_of_logIs st (Audit.AuditGrown.logIs X st h₁.grown),
        Audit.fileLines_logText X hold, Audit.entryLines_encoded X hold]
    have hparsed : (es.map X.auditToJson).map (Audit.parseLine X) = es.map some := by
      rw [List.map_map]
      apply List.map_congr_left
      intro e he
      exact Audit.parseLine_of_ok (hold e he).utf8 (hold e he).decode
    obtain ⟨front, hfront, _, hcount, hlast, _⟩ :=
      (Audit.tipIsPrefix_eq_ok X st (Nat.pos_of_ne_zero hzero)).mp hbegins
    rw [hlines, List.map_take, hparsed, ← List.map_take] at hfront
    have heq : es.take n = front := List.map_injective_iff.mpr (Option.some_injective _) hfront
    subst heq
    rw [← hcount, ← hlast]
    exact Audit.AuditGrown.tipIsPrefix_front h.grown hcodec hlen
      ((List.take_prefix _ _).trans (List.prefix_append _ _))

/-! ## The identity of the fabric -/

/-- The leftover key file goes away, or nothing happens. -/
theorem removeSecret_touching :
    st.Touching (st.Within [str "anchor.secret"])
      (ignore (removeFile (Keychain.secretPath st))) := by
  intro m hreal
  have hremove := Store.Touched.of_removeFile (S := st.Within [str "anchor.secret"])
    (p := Keychain.secretPath st) (w := m.toWorld) hreal fun q hq => by
      rw [hreal.resolve_eq (List.prefix_append _ _) (Purge.record_names hreal (by decide)) hq]
      exact ⟨_, [], rfl, Or.inl (by simp)⟩
  apply After.final (P := fun w : World => st.Touched (st.Within [str "anchor.secret"]) m.fs w.fs)
  apply hremove.mono (fun _ _ h => h)
  intro _ w hw
  rw [hw]
  exact Store.Touched.refl hreal

/-- The certificate is written in a directory of its own. -/
theorem seal_touching {α : Type} {data : Bytes} {name : Name} (hname : ValidName name) (a : α) :
    st.Touching (st.Within [str "purges"]) (do
      io (createDirAll (Purge.purgesDir st))
      let tmp ← tmpPath (Purge.purgesDir st) (str "purge")
      io (writeFile tmp data)
      io (rename tmp (Purge.purgesDir st ++ [name]))
      pure a) := by
  intro m hreal
  have hdir : st.fabricDir <+: Purge.purgesDir st := List.prefix_append _ _
  have hunder : ∀ n, st.fabricDir <+: Purge.purgesDir st ++ [n] := fun n =>
    hdir.trans (List.prefix_append _ _)
  have hnames := Purge.record_names hreal (n := str "purges") (by decide)
  have hside : ∀ n, st.Within [str "purges"] (Purge.purgesDir st ++ [n]) := fun n =>
    ⟨str "purges", [n], by simp [Purge.purgesDir], Or.inl (by simp)⟩
  have hvalid : ∀ n, ValidName n → ∀ x ∈ Purge.purgesDir st ++ [n], ValidName x := by
    intro n hn x hx
    rcases List.mem_append.mp hx with hx | hx
    · exact hnames x hx
    · rw [List.mem_singleton.mp hx]
      exact hn
  have hmake := Store.Touched.of_createDirAll (S := st.Within [str "purges"]) (w := m.toWorld)
    hreal hdir hnames fun q hq hne hpre =>
      Store.within_of_prefix (List.mem_singleton_self _) hq hne hpre
  apply After.bind (P := fun _ m₁ => st.Touched (st.Within [str "purges"]) m.fs m₁.fs)
  · apply after_io
    exact hmake
  intro _ m₁ h₁
  apply After.bind (P := fun tmp m₂ => m₂.fs = m₁.fs ∧
    ∃ n, ValidName n ∧ tmp = Purge.purgesDir st ++ [n])
  · exact ⟨rfl, _, validName_tmpName (by decide) (by decide), rfl⟩
  intro tmp m₂ h₂
  obtain ⟨hfs, n, hn, rfl⟩ := h₂
  have h₂ : st.Touched (st.Within [str "purges"]) m.fs m₂.fs := hfs ▸ h₁
  apply After.bind (P := fun _ m₃ => st.Touched (st.Within [str "purges"]) m.fs m₃.fs)
  · apply after_io
    exact (Store.Touched.of_writeFile h₂.real (hunder n) (hvalid n hn) (hside n)).mono
      (fun _ _ h => h₂.trans h) fun _ _ h => h₂.trans h
  intro _ m₃ h₃
  apply After.bind (P := fun _ m₄ => st.Touched (st.Within [str "purges"]) m.fs m₄.fs)
  · apply after_io
    exact (Store.Touched.of_rename h₃.real (hunder n) (hunder name) (hvalid n hn)
      (hvalid name hname) (hside n) (hside name)).mono
        (fun _ _ h => h₃.trans h) fun _ _ h => by rw [h]; exact h₃
  intro _ m₄ h₄
  exact h₄

namespace Framed

variable {n : Name} {I : Machine → Prop}

/-- Where the identity is read without harm, so is the key. -/
theorem key (hI : Framed st n I) (hid : Keeps I (Anchor.fabricId st))
    (hn : n ≠ str "anchor.secret") (hdot : n.head? ≠ some 46)
    (hchain : ∀ m c, I m → I { m with keychain := c }) : Keeps I (Keychain.get st) := by
  have hremove : Keeps I (ignore (removeFile (Keychain.secretPath st))) :=
    hI.keeps removeSecret_touching (by simpa using hn) hdot
  have hmigrate : ∀ id raw, Keeps I (Keychain.migrate st id raw) := by
    intro id raw
    unfold Keychain.migrate
    refine Keeps.bind ?_ ?_
    · intro m h
      unfold Keychain.itemSet
      cases m.keychain.setError with
      | some e => exact h
      | none => exact hchain m _ h
    · intro stored
      cases stored with
      | error e => exact Keeps.pure _
      | ok u =>
          apply hremove.bind
          intro _
          exact Keeps.pure _
  have hback : ∀ id e, Keeps I (Keychain.fallBack st id e) := by
    intro id e
    unfold Keychain.fallBack
    apply Keeps.look.bind
    intro found
    cases found with
    | some raw => exact hmigrate id raw
    | none =>
        cases e with
        | some e => exact fun _ h => h
        | none => exact fun _ h => h
  intro m h
  unfold Keychain.get
  split
  · unfold Keychain.getFromKeychain
    apply After.bind (hid m h)
    intro id m₁ h₁
    rw [bind_apply, get_apply]
    simp only
    cases Keychain.itemGet id m₁.keychain with
    | error e => exact hback id _ m₁ h₁
    | ok found =>
        cases found with
        | none => exact hback id _ m₁ h₁
        | some raw =>
            apply After.bind (hremove m₁ h₁)
            intro _ _ h₂
            exact h₂
  · unfold Keychain.getFromFile
    apply after_look_bind _ fun _ _ => h
    intro found _
    cases found with
    | some raw => exact h
    | none => exact h

/-- And so is a certificate made. -/
theorem certificate (hI : Framed st n I) (hid : Keeps I (Anchor.fabricId st))
    (hn : n ≠ str "anchor.secret" ∧ n ≠ str "purges") (hdot : n.head? ≠ some 46)
    (hchain : ∀ m c, I m → I { m with keychain := c }) (X : Crates) (p : Purge.Plan)
    (counts : Nat × Nat) (ts : Nat) : Keeps I (Purge.certify X st p counts ts) := by
  unfold Purge.certify
  apply (hI.key hid hn.1 hdot hchain).bind
  intro found
  obtain ⟨raw, _, note⟩ := found
  apply Keeps.look.bind
  intro tip
  obtain ⟨auditLen, auditTip⟩ := tip
  apply hid.bind
  intro id
  exact hI.keeps (seal_touching (Purge.validName_cert p ts) _) (by simpa using hn.2) hdot

end Framed

/-- The fabric has this identity. -/
def Identified (st : Store) (id : Bytes) (m : Machine) : Prop :=
  st.Real m.fs ∧ Keychain.Named st id m.fs

/-- The identity is said of its file alone. -/
theorem identified_framed {id : Bytes} : Framed st (str "fabric_id") (Identified st id) := by
  refine ⟨fun h => h.1, ?_⟩
  intro m m' h hreal hsame
  obtain ⟨_, d, hd, hutf8, hid⟩ := h
  have hget : m'.fs.get (Anchor.fabricIdPath st) = m.fs.get (Anchor.fabricIdPath st) :=
    hsame _ ⟨[], rfl⟩
  exact ⟨hreal, d, hget.trans hd, hutf8, hid⟩

/-- An identity that is there is read and nothing else. -/
theorem identified_fabricId {id : Bytes} : Keeps (Identified st id) (Anchor.fabricId st) := by
  intro m h
  rw [Keychain.fabricId_of_named h.2]
  exact h

/-- Accepting an order keeps the identity. -/
theorem identified_accept {id : Bytes} (orderPath : Path) :
    Keeps (Identified st id) (Fleet.accept F st orderPath) := by
  unfold Fleet.accept
  apply Keeps.look.bind
  intro bytes
  apply Keeps.look.bind
  intro order
  obtain ⟨o, payload⟩ := order
  apply Keeps.look.bind
  intro _
  apply identified_fabricId.bind
  intro id
  by_cases hother : payload.fabricId ≠ id
  · simp only [if_pos hother]
    exact fun _ h => h
  · simp only [if_neg hother]
    apply Keeps.look.bind
    intro last
    by_cases hstale : payload.ts < last
    · simp only [if_pos hstale]
      exact fun _ h => h
    · simp only [if_neg hstale]
      apply Keeps.look.bind
      intro target
      exact Keeps.pure _

/-- The identity stays through every command. -/
theorem identified_lasting (id : Bytes) :
    Lasting F st (str "fabric_id") (Identified st id) where
  toFramed := identified_framed
  aside := by decide
  create := fun _ _ => identified_framed.keeps (Snapshot.createFromActor_touching _ _)
    (by decide) (by decide)
  head := fun _ => identified_framed.keeps (Store.setHead_touching _) (by decide) (by decide)
  record := fun event detail =>
    identified_framed.keeps (Audit.record_touching event detail) (by decide) (by decide)
  pull := fun _ _ => identified_framed.keeps (Sync.pull_touching _ _) (by decide) (by decide)
  accept := identified_accept
  bury := fun _ _ => identified_framed.bury _ _ _ (by decide)
  certify := identified_framed.certificate identified_fabricId (by decide) (by decide)
    (fun _ _ h => h) F.toCrates

/-! ## HEAD -/

/-- A blob touches the records of its kind. -/
theorem putBlob_touching {kind : Name} (hname : ValidName kind) (h : Hash) (stored : Bytes) :
    st.Touching (st.Within [kind]) (Store.putBlob (st.fanPath kind h) stored) := by
  intro m hreal
  have hpath : st.fabricDir <+: (st.fanPath kind h).dropLast := Store.fabricDir_prefix_fanPath _ _
  have hne : st.fanPath kind h ≠ [] := Store.fanPath_ne_nil _ _
  have hS : ∀ q, st.fabricDir <+: q → q ≠ st.fabricDir → q <+: st.fanPath kind h →
      st.Within [kind] q := fun q h₁ h₂ h₃ =>
    Store.within_of_prefix (List.mem_singleton_self _) h₁ h₂ h₃
  apply (Store.putBlob_after hreal hpath hne (Store.fanPath_names hreal hname h)).mono
  · intro _ m' hout
    rcases hout with ⟨_, rfl⟩ | ⟨_, hwrote⟩
    · exact Store.Touched.refl hreal
    · exact Store.Touched.of_wrote hreal hpath hne hS hwrote
  · intro _ m' hout
    refine Store.Touched.of_missed hreal hpath hS ?_ hout.2
    intro n
    rw [Store.fanPath_dropLast, List.append_assoc]
    exact ⟨kind, _, rfl, Or.inl (List.mem_singleton_self _)⟩

theorem putObject_touching {X : Crates} (data : Bytes) :
    st.Touching (st.Within [str "objects"]) (st.putObject X data) :=
  (putBlob_touching (by decide) _ _).bind fun _ => Store.Touching.pure _

theorem putManifest_touching {X : Crates} (data : Bytes) :
    st.Touching (st.Within [str "manifests"]) (st.putManifest X data) :=
  (putBlob_touching (by decide) _ _).bind fun _ => Store.Touching.pure _

/-- HEAD can be read. -/
def HeadReads (st : Store) (m : Machine) : Prop := st.Real m.fs ∧ ∃ h, st.head m.fs = .ok h

/-- That the head reads is said of its file alone. -/
theorem headReads_framed : Framed st (str "HEAD") (HeadReads st) := by
  refine ⟨fun h => h.1, ?_⟩
  intro m m' h hreal hsame
  obtain ⟨hold, head, hhead⟩ := h
  have hget : m'.fs.get st.headPath = m.fs.get st.headPath := hsame _ ⟨[], rfl⟩
  exact ⟨hreal, head, (Snapshot.head_congr hold hreal hget).trans hhead⟩

/-- HEAD is replaced as a whole, or stays as it is. -/
theorem headReads_setHead (id : Option Hash) : Keeps (HeadReads st) (st.setHead id) := by
  intro m h
  have hreal := h.1
  have htouched := Store.setHead_touching id m hreal
  have hdrop : st.headPath.dropLast = st.fabricDir := List.dropLast_concat
  have hwrote : After (st.setHead id m) _ _ := Store.atomicWrite_after (by simp [Store.headPath])
    (Purge.record_names hreal (by decide))
    (fun pre hpre => hreal.noLink (by rw [hdrop]) hpre)
  cases hrun : st.setHead id m with
  | ok u m' =>
      refine ⟨(htouched.ok hrun).real, ?_⟩
      obtain ⟨d, hd, hbytes⟩ := (hwrote.ok hrun).file
      cases id with
      | none =>
          refine ⟨none, ?_⟩
          unfold Store.head Fs.readToString
          rw [Fs.read_of_get hd, hbytes]
          rfl
      | some id => exact ⟨some id, Snapshot.head_of_file hd hbytes⟩
  | error e m' =>
      refine headReads_framed.frame h (htouched.error hrun).real ?_
      intro q hq
      obtain ⟨rest, rfl⟩ := hq
      rcases (hwrote.error hrun).frame (st.fabricDir ++ str "HEAD" :: rest) with hkept | htmp
      · rcases hkept with hsame | ⟨hpre, _, _⟩
        · exact hsame
        · rw [hdrop] at hpre
          have hlen := hpre.length_le
          simp only [List.length_append, List.length_cons] at hlen
          omega
      · -- a temporary file is not named HEAD
        obtain ⟨⟨k, heq⟩, _⟩ := htmp
        rw [hdrop] at heq
        have hdot : (str "HEAD").head? ≠ some 46 := by decide
        rw [(List.cons.inj (List.append_cancel_left heq)).1] at hdot
        exact absurd rfl hdot

/-- The head reads through every command. -/
theorem headReads_lasting : Lasting F st (str "HEAD") (HeadReads st) where
  toFramed := headReads_framed
  aside := by decide
  create := Snapshot.createFromActor_keeps
    (fun data => headReads_framed.keeps (putObject_touching data) (by decide) (by decide))
    (fun data => headReads_framed.keeps (putManifest_touching data) (by decide) (by decide))
    headReads_setHead
  head := headReads_setHead
  record := fun event detail =>
    headReads_framed.keeps (Audit.record_touching event detail) (by decide) (by decide)
  pull := fun _ _ => headReads_framed.keeps (Sync.pull_touching _ _) (by decide) (by decide)
  accept := fun _ => headReads_framed.accept F _ (by decide) (by decide)
  bury := fun _ _ => headReads_framed.bury _ _ _ (by decide)
  certify := fun _ _ _ => headReads_framed.certify _ _ _ _ (by decide)

/-! ## Blobs -/

/-- These blobs of the kind are what they were. -/
def BlobsStay (st : Store) (kind : Name) (S : Hash → Prop) (fs₀ : Fs) (m : Machine) : Prop :=
  st.Real m.fs ∧ ∀ h x, S h → fs₀.get (st.fanPath kind h) = some x →
    m.fs.get (st.fanPath kind h) = some x

variable {kind : Name} {S : Hash → Prop} {fs₀ : Fs}

/-- That blobs stay is said of their directory alone. -/
theorem blobsStay_framed : Framed st kind (BlobsStay st kind S fs₀) := by
  refine ⟨fun h => h.1, ?_⟩
  intro m m' h hreal hsame
  refine ⟨hreal, ?_⟩
  intro g x hg hx
  exact (hsame (st.fanPath kind g) ⟨_, rfl⟩).trans (h.2 g x hg hx)

/-- A blob that is there is not written again. -/
theorem blobsStay_putBlob (hname : ValidName kind) (g : Hash) (stored : Bytes) :
    Keeps (BlobsStay st kind S fs₀) (Store.putBlob (st.fanPath kind g) stored) := by
  intro m h
  have hreal := h.1
  have hpath : st.fabricDir <+: (st.fanPath kind g).dropLast := Store.fabricDir_prefix_fanPath _ _
  have htouched := putBlob_touching hname g stored m hreal
  have hafter : After (Store.putBlob (st.fanPath kind g) stored m) _ _ :=
    Store.putBlob_after hreal hpath (Store.fanPath_ne_nil _ _) (Store.fanPath_names hreal hname g)
  have hkept : ∀ {fs' : Fs} {q : Path} {x : Node},
      KeptUpTo (st.fanPath kind g).dropLast m.fs fs' q → m.fs.get q = some x →
      fs'.get q = some x := by
    intro fs' q x hkept hx
    rcases hkept with hsame | ⟨_, hnone, _⟩
    · exact hsame.trans hx
    · rw [hx] at hnone
      cases hnone
  cases hrun : Store.putBlob (st.fanPath kind g) stored m with
  | ok u m' =>
      rcases hafter.ok hrun with ⟨_, rfl⟩ | ⟨hnone, hwrote⟩
      · exact h
      · refine ⟨(htouched.ok hrun).real, ?_⟩
        intro f x hf hx
        have hold := h.2 f x hf hx
        apply hkept (hwrote.frame _ _) hold
        intro heq
        rw [heq, hnone] at hold
        cases hold
  | error e m' =>
      obtain ⟨_, hmissed⟩ := hafter.error hrun
      refine ⟨(htouched.error hrun).real, ?_⟩
      intro f x hf hx
      have hold := h.2 f x hf hx
      rcases hmissed.frame (st.fanPath kind f) with hsame | ⟨_, hnone, _⟩
      · exact hkept hsame hold
      · rw [hold] at hnone
        cases hnone

/-- Of the operations, only those that store a blob touch the records of its
kind. -/
theorem blobs_lasting {I : Machine → Prop} (hkind : kind = str "objects" ∨ kind = str "manifests")
    (hI : Framed st kind I) (hobject : ∀ data, Keeps I (st.putObject F.toCrates data))
    (hmanifest : ∀ data, Keeps I (st.putManifest F.toCrates data)) : Lasting F st kind I := by
  have hother : ∀ n ∈ [str "fabric_id", str "lock", str "fleet_seen", str "tmp", str "HEAD",
      str "audit.jsonl", str "remotes", str "purged.jsonl"], kind ∉ [n] := by
    rcases hkind with rfl | rfl <;> decide
  have hrecord : kind ∈ Store.recordNames := by rcases hkind with rfl | rfl <;> decide
  have hdot : kind.head? ≠ some 46 := by rcases hkind with rfl | rfl <;> decide
  have hremotes : ∀ q, Sync.AmongRemotes st q → ¬ st.Under kind q := by
    intro q hq hunder
    obtain ⟨rest, rfl⟩ := hq.eq_append
    obtain ⟨rest', heq⟩ := hunder
    exact hother (str "remotes") (by decide)
      (List.mem_singleton.mpr (List.cons.inj (List.append_cancel_left heq)).1.symm)
  have hhead : ∀ id, Keeps I (st.setHead id) := fun id =>
    hI.keeps (Store.setHead_touching id) (hother _ (by decide)) hdot
  refine ⟨hI, ⟨?_, hdot⟩, Snapshot.createFromActor_keeps hobject hmanifest hhead, hhead, ?_, ?_, ?_,
    ?_, fun _ _ _ => hI.certify _ _ _ _ hrecord⟩
  · rcases hkind with rfl | rfl <;> decide
  · intro event detail
    exact hI.keeps (Audit.record_touching event detail) (hother _ (by decide)) hdot
  · intro addr peer m h
    apply Sync.pull_keeps _ h
    refine ⟨fun m data => hmanifest data m, fun m data => hobject data m, ?_, ?_⟩
    · intro m h
      exact (Sync.remotes_touches (hI.real h)).mono
        (fun _ _ ht => hI.of_touched h (ht.mono hremotes))
        fun _ _ ht => hI.of_touched h (ht.mono hremotes)
    · intro m addr g haddr h
      exact (Sync.remote_touches (hI.real h) haddr).mono
        (fun _ _ ht => hI.of_touched h (ht.mono hremotes))
        fun _ _ ht => hI.of_touched h (ht.mono hremotes)
  · intro orderPath
    exact hI.accept F orderPath (by simpa using hother (str "fabric_id") (by decide)) hdot
  · intro p ts
    exact hI.bury _ _ _ (by simpa using hother (str "purged.jsonl") (by decide))

/-- Objects and manifests stay through every command. -/
theorem blobsStay_lasting (hkind : kind = str "objects" ∨ kind = str "manifests") :
    Lasting F st kind (BlobsStay st kind S fs₀) := by
  have hname : ValidName kind := by rcases hkind with rfl | rfl <;> decide
  have hdot : kind.head? ≠ some 46 := by rcases hkind with rfl | rfl <;> decide
  have hput : ∀ k, (k = str "objects" ∨ k = str "manifests") → ∀ g stored,
      Keeps (BlobsStay st kind S fs₀) (Store.putBlob (st.fanPath k g) stored) := by
    intro k hk g stored
    by_cases hsame : k = kind
    · subst hsame
      exact blobsStay_putBlob hname g stored
    · refine blobsStay_framed.keeps (putBlob_touching ?_ g stored) ?_ hdot
      · rcases hk with rfl | rfl <;> decide
      · simpa using fun heq => hsame heq.symm
  exact blobs_lasting hkind blobsStay_framed
    (fun data => (hput _ (Or.inl rfl) _ _).bind fun _ => Keeps.pure _)
    fun data => (hput _ (Or.inr rfl) _ _).bind fun _ => Keeps.pure _

/-- Objects that are not swept stay. -/
theorem blobsStay_unswept {c : Command} (hsweeps : ∀ s p chunks, Sweeps F st c m s p chunks →
    ∀ g ∈ Purge.unshared p.elsewhere chunks, ¬ S g) :
    Unswept F st (BlobsStay st (str "objects") S fs₀) c m := by
  intro s p chunks hc h
  have hkept : ∀ {pre : List Hash} {fs' : Fs}, (∀ g ∈ pre, ¬ S g) →
      Purge.Swept st pre s.fs fs' → ∀ g x, S g → fs₀.get (st.objectPath g) = some x →
      fs'.get (st.objectPath g) = some x := by
    intro pre fs' hpre hswept g x hg hx
    refine (hswept.touched.frame _ ?_).trans (h.2 g x hg hx)
    intro hmem
    obtain ⟨f, hf, heq⟩ := hmem
    exact hpre f hf (Store.fanPath_injective heq ▸ hg)
  apply (Purge.sweep_after h.1).mono
  · intro _ m' hdone
    exact ⟨hdone.1.touched.real, hkept (hsweeps s p chunks hc) hdone.1⟩
  · intro _ m' hstop
    obtain ⟨pre, g, post, heq, hswept, _⟩ := hstop
    refine ⟨hswept.touched.real, hkept ?_ hswept⟩
    intro f hf
    exact hsweeps s p chunks hc f (heq ▸ List.mem_append_left _ hf)

/-! ## Snapshots -/

/-- The command leaves the manifests alone, and the objects but those that a
purge sweeps, none of which has `S`. -/
structure SparesBlobs (F : FleetCrates) (st : Store) (S : Hash → Prop) (c : Command)
    (m : Machine) : Prop where
  decent : Decent F st c m
  manifests : Spares F st (str "manifests") c m
  objects : Spares F st (str "objects") c m
  sweeps : ∀ s p chunks, Sweeps F st c m s p chunks →
    ∀ g ∈ Purge.unshared p.elsewhere chunks, ¬ S g

/-- A snapshot that loads goes on loading. -/
theorem load_lasts (hrun : Runs F st (SparesBlobs F st S) m₀ m) (hreal : st.Real m₀.fs)
    {h : Hash} {mf : Manifest} (hload : Snapshot.load F.toCrates st m₀.fs h = .ok mf) :
    Snapshot.load F.toCrates st m.fs h = .ok mf := by
  obtain ⟨hreal', hkept⟩ := (blobsStay_lasting (S := fun _ => True) (Or.inr rfl)).run
    (fun c m hc => ⟨hc.decent, hc.manifests, blobsStay_framed.unswept (by decide)⟩) hrun
    ⟨hreal, fun _ _ _ hx => hx⟩
  obtain ⟨d, hd, hdecode⟩ := (load_eq_ok hreal).mp hload
  exact (load_eq_ok hreal').mpr ⟨d, hkept h _ trivial hd, hdecode⟩

/-- An object that is read is a file. -/
theorem file_of_getObject {X : Crates} {fs : Fs} {k : Hash} {data : Bytes} (hreal : st.Real fs)
    (hget : st.getObject X fs k = .ok data) : ∃ d, fs.get (st.objectPath k) = some (.file d) := by
  have hin : st.fabricDir <+: st.objectPath k :=
    (Store.fabricDir_prefix_fanPath _ _).trans (List.dropLast_prefix _)
  unfold Store.getObject Store.readBlob at hget
  cases hread : fs.read (st.objectPath k) with
  | error e =>
      rw [hread] at hget
      cases e <;> cases hget
  | ok bytes =>
      obtain ⟨d, hd, _⟩ :=
        (hreal.read_eq_ok hin (Store.fanPath_names hreal (by decide) k)).mp hread
      exact ⟨d, hd⟩

/-- An object that no purge sweeps goes on reading the same. -/
theorem object_lasts (hrun : Runs F st (SparesBlobs F st S) m₀ m) (hreal : st.Real m₀.fs)
    {k : Hash} (hk : S k) {data : Bytes} (hget : st.getObject F.toCrates m₀.fs k = .ok data) :
    st.getObject F.toCrates m.fs k = .ok data := by
  obtain ⟨hreal', hkept⟩ := (blobsStay_lasting (Or.inl rfl)).run
    (fun c m hc => ⟨hc.decent, hc.objects, blobsStay_unswept hc.sweeps⟩) hrun
    ⟨hreal, fun _ _ _ hx => hx⟩
  obtain ⟨d, hd⟩ := file_of_getObject hreal hget
  apply Revert.getObject_congr hreal hreal' hget
  rw [m₀.fs.leaf_eq_some.mpr ⟨hd, by simp⟩]
  exact m.fs.leaf_eq_some.mpr ⟨hkept k _ hk hd, by simp⟩

/-- The chunks of the history of a snapshot. -/
def ChunkOn (X : Crates) (st : Store) (fs : Fs) (h k : Hash) : Prop :=
  ∃ g mf fe, OnChain X st fs h g ∧ Snapshot.load X st fs g = .ok mf ∧ fe ∈ mf.files ∧
    k ∈ fe.chunks

/-- **A history is only lost to a purge that sweeps it**: in every run of
commands where none does, each snapshot of the history stays on it and goes on
loading, and each chunk that could be read reads the same. -/
theorem history_lasts {h g : Hash} {mf : Manifest} (hreal : st.Real m₀.fs)
    (hrun : Runs F st (SparesBlobs F st (ChunkOn F.toCrates st m₀.fs h)) m₀ m)
    (hchain : OnChain F.toCrates st m₀.fs h g)
    (hload : Snapshot.load F.toCrates st m₀.fs g = .ok mf) :
    OnChain F.toCrates st m.fs h g ∧ Snapshot.load F.toCrates st m.fs g = .ok mf ∧
      ∀ fe ∈ mf.files, ∀ k ∈ fe.chunks, ∀ data, st.getObject F.toCrates m₀.fs k = .ok data →
        st.getObject F.toCrates m.fs k = .ok data := by
  refine ⟨?_, load_lasts hrun hreal hload, ?_⟩
  · induction hchain generalizing mf with
    | head => exact .head
    | parent hg hparentLoad hparent ih =>
        exact .parent (ih hparentLoad) (load_lasts hrun hreal hparentLoad) hparent
  · intro fe hfe k hk data hdata
    exact object_lasts hrun hreal ⟨g, mf, fe, hchain, hload, hfe, hk⟩ hdata

/-! ## Anchors -/

/-- What `verify` reports of an anchor that passes. -/
def outcome (A : AnchorCrates) (bytes : Bytes) (file : Anchor.AnchorFile)
    (payload : Anchor.AnchorPayload) (head : Option Hash) : Anchor.VerifyOutcome :=
  { signerPubkey := file.pubkey
    auditLen := payload.auditLen
    anchoredHead := payload.head
    currentHead := head.map hashHex
    fileHash := hashHex (A.blake3 bytes)
    prevAnchor := payload.prevAnchor }

/-- What an anchor passes. -/
theorem verify_eq_ok {A : AnchorCrates} {path : Path} {expected : Option Bytes}
    {o : Anchor.VerifyOutcome} :
    Anchor.verify A st path expected m = .ok o m₁ ↔
      ∃ bytes file payload head, Anchor.readAnchorFile path m.fs = .ok bytes ∧
        Anchor.checkedAnchor A bytes = .ok (file, payload) ∧
        Anchor.checkSigner expected file = .ok () ∧
        Anchor.fabricId st m = .ok payload.fabricId m₁ ∧
        Audit.tipIsPrefix A.toCrates st payload.auditLen payload.auditTip m₁.fs = .ok () ∧
        st.head m₁.fs = .ok head ∧ o = outcome A bytes file payload head := by
  unfold Anchor.verify
  constructor
  · intro h
    obtain ⟨bytes, m₂, hbytes, hrest⟩ := bind_eq_ok.mp h
    obtain ⟨hread, hm₂⟩ := look_eq_ok.mp hbytes
    obtain ⟨⟨file, payload⟩, m₃, hchecked, hthen⟩ := bind_eq_ok.mp hrest
    obtain ⟨hanchor, hm₃⟩ := look_eq_ok.mp hchecked
    obtain ⟨_, m₄, hsigner, hid⟩ := bind_eq_ok.mp hthen
    obtain ⟨hsigned, hm₄⟩ := look_eq_ok.mp hsigner
    obtain ⟨id, m₅, hfabric, hlast⟩ := bind_eq_ok.mp hid
    by_cases hother : payload.fabricId ≠ id
    · rw [if_pos hother] at hlast
      cases hlast
    · rw [if_neg hother] at hlast
      obtain ⟨_, m₆, htip, hend⟩ := bind_eq_ok.mp hlast
      obtain ⟨hbegins, hm₆⟩ := look_eq_ok.mp htip
      obtain ⟨head, m₇, hhead, hdone⟩ := bind_eq_ok.mp hend
      obtain ⟨hreads, hm₇⟩ := look_eq_ok.mp hhead
      cases hdone
      subst hm₂ hm₃ hm₄ hm₆ hm₇
      rw [← not_not.mp hother] at hfabric
      exact ⟨bytes, file, payload, head, hread, hanchor, hsigned, hfabric, hbegins, hreads, rfl⟩
  · intro h
    obtain ⟨bytes, file, payload, head, hread, hanchor, hsigned, hid, hbegins, hreads, rfl⟩ := h
    refine bind_eq_ok.mpr ⟨bytes, m, look_eq_ok.mpr ⟨hread, rfl⟩, ?_⟩
    refine bind_eq_ok.mpr ⟨(file, payload), m, look_eq_ok.mpr ⟨hanchor, rfl⟩, ?_⟩
    refine bind_eq_ok.mpr ⟨(), m, look_eq_ok.mpr ⟨hsigned, rfl⟩, ?_⟩
    refine bind_eq_ok.mpr ⟨payload.fabricId, m₁, hid, ?_⟩
    rw [if_neg (not_not.mpr rfl)]
    refine bind_eq_ok.mpr ⟨(), m₁, look_eq_ok.mpr ⟨hbegins, rfl⟩, ?_⟩
    exact bind_eq_ok.mpr ⟨head, m₁, look_eq_ok.mpr ⟨hreads, rfl⟩, rfl⟩

/-- The commands that leave a fabric its log, its identity and HEAD. -/
def SparesTrust (F : FleetCrates) (st : Store) (c : Command) (m : Machine) : Prop :=
  Decent F st c m ∧ ∀ n ∈ [str "audit.jsonl", str "fabric_id", str "HEAD"], Spares F st n c m

/-- **An anchor that passes once passes ever after**: whatever commands run,
with whatever outcome, and whatever else happens outside the fabric, its file
being what it was, `verify` says the same of it but for where HEAD is now. -/
theorem verified_lasts {A : AnchorCrates} (hcrates : A.toCrates = F.toCrates) {path : Path}
    {expected : Option Bytes} {o : Anchor.VerifyOutcome} {es : List AuditEntry}
    {seen : List (Nat × Bytes)} (hreal : st.Real m₀.fs)
    (hverified : Anchor.verify A st path expected m₀ = .ok o m₁)
    (hlog : Audit.Recorded F.toCrates st m₁ es seen)
    (hrun : Runs F st (SparesTrust F st) m₁ m)
    (hcodec : ∀ more, Audit.Recorded F.toCrates st m (es ++ more) seen →
      ∀ e ∈ es ++ more, Audit.Encodes F.toCrates e)
    (hsize : ∀ d, m.fs.get (Audit.auditPath st) = some (.file d) → d.bytes.length ≤ 2 ^ 64)
    (hfile : Anchor.readAnchorFile path m.fs = Anchor.readAnchorFile path m₀.fs) :
    ∃ head, st.head m.fs = .ok head ∧
      Anchor.verify A st path expected m = .ok { o with currentHead := head.map hashHex } m := by
  obtain ⟨bytes, file, payload, head, hread, hanchor, hsigned, hid, hbegins, hreads, rfl⟩ :=
    verify_eq_ok.mp hverified
  have hafter : After (Anchor.fabricId st m₀) _ _ := Anchor.fabricId_after hreal
  have hreal₁ : st.Real m₁.fs := (hafter.ok hid).real
  have hnamed : Keychain.Named st payload.fabricId m₁.fs := (Fleet.named_of_fabricId hreal hid).1
  obtain ⟨_, more, hgrown⟩ := (logGoesOn_lasting es seen).run
    (fun c m h => ⟨h.1, h.2 _ (by decide), logGoesOn_framed.unswept (by decide)⟩) hrun
    ⟨hreal₁, [], by rw [List.append_nil]; exact hlog⟩
  obtain ⟨_, hnow⟩ := (identified_lasting payload.fabricId).run
    (fun c m h => ⟨h.1, h.2 _ (by decide), identified_framed.unswept (by decide)⟩) hrun
    ⟨hreal₁, hnamed⟩
  obtain ⟨_, head', hhead'⟩ := headReads_lasting.run
    (fun c m h => ⟨h.1, h.2 _ (by decide), headReads_framed.unswept (by decide)⟩) hrun
    ⟨hreal₁, head, hreads⟩
  have hlen : (es ++ more).length ≤ 2 ^ 64 := by
    rcases (Audit.AuditGrown.logIs F.toCrates st hgrown.grown).2 with ⟨_, hempty⟩ | ⟨d, hd, hbytes⟩
    · have hcount := length_le_logText F.toCrates (es ++ more)
      rw [hempty] at hcount
      exact hcount.trans (Nat.zero_le _)
    · have hcount := length_le_logText F.toCrates (es ++ more)
      rw [← hbytes] at hcount
      exact hcount.trans (hsize d hd)
  refine ⟨head', hhead', verify_eq_ok.mpr ⟨bytes, file, payload, head', hfile.trans hread, hanchor,
    hsigned, Keychain.fabricId_of_named hnow, ?_, hhead', rfl⟩⟩
  rw [hcrates] at hbegins ⊢
  exact tipIsPrefix_goesOn hlog hgrown (hcodec more hgrown) hlen hbegins

/-! ## Small runs -/

/-- Read an entry that was printed in hexadecimal. -/
def readEntry (line : Bytes) : Except Bytes AuditEntry :=
  match ((hexDecode line).bind Json.parse).bind Audit.ofEntryMembers with
  | some e => .ok e
  | none => .error (str "expected value")

/-- Crates that print the entries of the log so. -/
def ledgerCrates : Crates :=
  { smallCrates [(str "one", smallManifest none none [smallEntry (str "a") (str "A")])] [] [] with
    verifyingKey := id
    sign := Anchor.padSignature
    auditToJson := fun e => hexEncode (Json.print (Audit.entryMembers e))
    auditOfJson := readEntry }

def ledgerAnchors : AnchorCrates := { jsonAnchors with toCrates := ledgerCrates }

def ledgerOrders : FleetCrates := { jsonOrders with toCrates := ledgerCrates }

/-- Every entry reads back from the line it is written as. -/
theorem ledgerCrates_encodes (e : AuditEntry) : Audit.Encodes ledgerCrates e := by
  have hne : hexEncode (Json.print (Audit.entryMembers e)) ≠ [] := by
    intro hnil
    have hlen := congrArg List.length hnil
    rw [hexEncode_length] at hlen
    simp [Json.print] at hlen
  have hprints := printing_hexEncode (Json.print (Audit.entryMembers e))
  refine ⟨?_, validUtf8_hexEncode _, ?_, ?_, ?_⟩
  · have hparsed : ((hexDecode (hexEncode
        (Json.print (Audit.entryMembers e)))).bind Json.parse).bind
        Audit.ofEntryMembers = some e := by
      rw [hexDecode_hexEncode, Option.bind_some, Json.parse_print]
      rfl
    show readEntry _ = .ok e
    unfold readEntry
    rw [show ((hexDecode (ledgerCrates.auditToJson e)).bind Json.parse).bind Audit.ofEntryMembers =
      some e from hparsed]
  · intro hmem
    exact absurd (hprints 10 hmem) (by decide)
  · intro hlast
    exact absurd (hprints 13 (List.mem_of_getLast? hlast)) (by decide)
  · show trim (hexEncode _) ≠ []
    rw [trim_hexEncode]
    exact hne

/-- A fabric with an identity and a signing key, beside a file `a`. -/
def ledgerFabric : Fs :=
  Fs.build (Store.fabricNodes ⟨[str "w"]⟩ [] ++
    [(Anchor.fabricIdPath ⟨[str "w"]⟩, Store.plainFile (str "fabric")),
     (Keychain.secretPath ⟨[str "w"]⟩, Store.plainFile (hexEncode Anchor.anchorSeed)),
     ([str "w", str "a"], Store.plainFile (str "A"))])

/-- Its first event is recorded. -/
def ledgerBegun : Machine :=
  finalState (Audit.record ledgerCrates ⟨[str "w"]⟩ (str "init") (str "x")
    (Machine.start ledgerFabric))

/-- And an anchor of it is written to the root of the disk. -/
def ledgerAnchored : Machine :=
  finalState (Anchor.create ledgerAnchors ⟨[str "w"]⟩ [str "anchor"] ledgerBegun)

/-- The anchor is verified. -/
def ledgerVerified : Machine :=
  finalState (Anchor.verify ledgerAnchors ⟨[str "w"]⟩ [str "anchor"] none ledgerAnchored)

/-- And then a snapshot is taken. -/
def ledgerLater : Machine :=
  (Command.snap (str "later") none).after ledgerOrders ⟨[str "w"]⟩ ledgerVerified

/-- A snap is decent. -/
theorem decent_snap {message : Bytes} {actor : Option Bytes} :
    Decent F st (.snap message actor) m := by
  refine ⟨?_, ?_⟩
  · intro s mf keepExtra happlies
    cases happlies
  · intro argv policy fullDrift child m₁ m₂ before left mf snap status heq
    cases heq

/-- A snap spares every name. -/
theorem spares_snap {n : Name} {message : Bytes} {actor : Option Bytes} :
    Spares F st n (.snap message actor) m := by
  refine ⟨?_, ?_⟩
  · intro p hremoves
    obtain ⟨_, _, _, _, _, _, _, _, heq, _⟩ := hremoves
    cases heq
  · intro order rel r s heq
    cases heq

/-- The verification is recorded as one entry. -/
theorem ledgerVerified_recorded :
    ∃ e, Audit.Recorded ledgerCrates ⟨[str "w"]⟩ ledgerVerified [e] [] := by
  have hbegun : Audit.Recorded ledgerCrates ⟨[str "w"]⟩ ledgerBegun _ [] :=
    Audit.Recorded.record (.start (m := Machine.start ledgerFabric) (by decide +kernel)
      (by decide +kernel))
      (eq_ok_of_succeeded (r := Audit.record ledgerCrates ⟨[str "w"]⟩ (str "init") (str "x")
        (Machine.start ledgerFabric)) (by decide +kernel))
  have hlog := Audit.AuditGrown.logIs ledgerCrates ⟨[str "w"]⟩ hbegun.grown
  have hsame : ledgerVerified.fs.get (Audit.auditPath ⟨[str "w"]⟩) =
      ledgerBegun.fs.get (Audit.auditPath ⟨[str "w"]⟩) := by decide +kernel
  have hdir : ledgerVerified.fs.get (Store.fabricDir ⟨[str "w"]⟩) = some .dir := by decide +kernel
  refine ⟨_, hbegun.elsewhere hlog ⟨hdir, ?_⟩⟩
  have htext := hlog.2
  unfold Fs.HasText at htext ⊢
  rw [hsame]
  exact htext

/-- A verified anchor verifies again after a snap. -/
theorem verified_lasts_snap : ∃ o head,
    Anchor.verify ledgerAnchors ⟨[str "w"]⟩ [str "anchor"] none ledgerAnchored =
        .ok o ledgerVerified ∧
      Store.head ⟨[str "w"]⟩ ledgerLater.fs = .ok head ∧
      Anchor.verify ledgerAnchors ⟨[str "w"]⟩ [str "anchor"] none ledgerLater =
        .ok { o with currentHead := head.map hashHex } ledgerLater := by
  obtain ⟨e, hlog⟩ := ledgerVerified_recorded
  obtain ⟨o, hverified⟩ : ∃ o, Anchor.verify ledgerAnchors ⟨[str "w"]⟩ [str "anchor"] none
      ledgerAnchored = .ok o ledgerVerified := exists_of_succeeded (by decide +kernel)
  have hrun : Runs ledgerOrders ⟨[str "w"]⟩ (SparesTrust ledgerOrders ⟨[str "w"]⟩) ledgerVerified
      ledgerLater := .command _ .start ⟨decent_snap, fun _ _ => spares_snap⟩
  have hshort : (ledgerLater.fs.read (Audit.auditPath ⟨[str "w"]⟩)).toOption.all
      (fun b => decide (b.length ≤ 1000)) = true := by decide +kernel
  obtain ⟨head, hhead, hlater⟩ := verified_lasts (F := ledgerOrders) rfl
    (Store.Real.of_keys (by decide +kernel) (by decide +kernel)) hverified hlog hrun
    (fun _ _ e _ => ledgerCrates_encodes e) (by
      intro d hd
      rw [Fs.read_of_get hd] at hshort
      exact (of_decide_eq_true hshort).trans (by decide)) (by decide +kernel)
  exact ⟨o, head, hverified, hhead, hlater⟩

/-- A fabric whose HEAD is a snapshot of a file, which is still there. -/
def keptFabric : Fs :=
  Fs.build (Store.fabricNodes ⟨[str "w"]⟩ (hashHex (padHash (str "one"))) ++
    Store.blobNodes ⟨[str "w"]⟩ (str "manifests") (padHash (str "one")) (str "one") ++
    Store.blobNodes ⟨[str "w"]⟩ (str "objects") (padHash (str "A")) (str "A") ++
    [([str "w", str "a"], Store.plainFile (str "B"))])

/-- The snapshot that follows. -/
def keptLater : Machine :=
  (Command.snap (str "later") none).after ledgerOrders ⟨[str "w"]⟩ (Machine.start keptFabric)

/-- A snapshot and its objects load again after a snap. -/
theorem history_lasts_snap : ∃ mf,
    Snapshot.load ledgerCrates ⟨[str "w"]⟩ keptFabric (padHash (str "one")) = .ok mf ∧
      OnChain ledgerCrates ⟨[str "w"]⟩ keptLater.fs (padHash (str "one")) (padHash (str "one")) ∧
      Snapshot.load ledgerCrates ⟨[str "w"]⟩ keptLater.fs (padHash (str "one")) = .ok mf ∧
      ∀ fe ∈ mf.files, ∀ k ∈ fe.chunks, ∀ data,
        Store.getObject ledgerCrates ⟨[str "w"]⟩ keptFabric k = .ok data →
        Store.getObject ledgerCrates ⟨[str "w"]⟩ keptLater.fs k = .ok data := by
  have hload : Snapshot.load ledgerOrders.toCrates ⟨[str "w"]⟩ (Machine.start keptFabric).fs
      (padHash (str "one")) = .ok (smallManifest none none [smallEntry (str "a") (str "A")]) :=
    eq_ok_of_toOption (by decide +kernel)
  have hreal : Store.Real ⟨[str "w"]⟩ (Machine.start keptFabric).fs :=
    Store.Real.of_keys (by decide +kernel) (by decide +kernel)
  have hrun : Runs ledgerOrders ⟨[str "w"]⟩ (SparesBlobs ledgerOrders ⟨[str "w"]⟩
      (ChunkOn ledgerOrders.toCrates ⟨[str "w"]⟩ (Machine.start keptFabric).fs
        (padHash (str "one")))) (Machine.start keptFabric) keptLater := by
    refine .command _ .start ⟨decent_snap, spares_snap, spares_snap, ?_⟩
    intro s p chunks hsweeps
    obtain ⟨_, _, heq, _⟩ := hsweeps
    cases heq
  exact ⟨_, hload, history_lasts hreal hrun .head hload⟩

end Cli

end Respawn
