import Respawn.Anchors
import Respawn.AuditRun

/-!
# Checkpoints of the log

`tip` takes the number of entries and the last hash from the last line of the
log; it asks only that every line can be parsed.  `verify` and `tip_is_prefix`
also ask for the numbers, the links and the hashes.  The three agree on the
logs in which the parsed lines are a chain (`Intact`), and an anchor of such a
log passes `anchor verify` for as long as the log stays as it is.

* `checkpoints_iff` — on every other log `tip` and the verifiers part.
-/

namespace Respawn

open ByteStr FileTree StateLogic HashChain

variable (X : Crates) (st : Store)

namespace Audit

/-! ## What `tip` reads -/

/-- The entries up to the first line that is none. -/
def entriesRead : List (Option AuditEntry) → List AuditEntry
  | some e :: rest => e :: entriesRead rest
  | _ => []

/-- What stands on the lines that are not blank. -/
def parsed (fs : Fs) : List (Option AuditEntry) := (entryLines (logLines st fs)).map (parseLine X)

/-- Whether the loop of `tip` adds one to the largest number of 64 bits. -/
def tipOverflows : List Bytes → Bool
  | [] => false
  | line :: rest =>
      if validUtf8 line = false then false
      else if trim line = [] then tipOverflows rest
      else match X.auditOfJson line with
        | .error _ => false
        | .ok e => decide (2 ^ 64 ≤ e.seq + 1) || tipOverflows rest

/-- The log is as it was. -/
def LogKept (fs fs' : Fs) : Prop := fs'.metadata (auditPath st) = fs.metadata (auditPath st)

variable {X st}

@[simp] theorem entriesRead_map_some (es : List AuditEntry) : entriesRead (es.map some) = es := by
  induction es with
  | nil => rfl
  | cons e es ih => exact congrArg (e :: ·) ih

theorem parseLine_of_ok {line : Bytes} {e : AuditEntry} (hutf : validUtf8 line = true)
    (h : X.auditOfJson line = .ok e) : parseLine X line = some e := by
  simp [parseLine, hutf, h, Except.toOption]

theorem parseLine_of_error {line m : Bytes} (h : X.auditOfJson line = .error m) :
    parseLine X line = none := by
  simp [parseLine, h, Except.toOption]

/-- The cases of a line, as the readers of the log tell them apart. -/
theorem line_cases (X : Crates) (line : Bytes) :
    (isBlank line = true ∧ validUtf8 line = true ∧ trim line = []) ∨
      (isBlank line = false ∧ parseLine X line = none ∧ (validUtf8 line = false ∨
        trim line ≠ [] ∧ ∃ m, X.auditOfJson line = .error m)) ∨
      ∃ e, isBlank line = false ∧ parseLine X line = some e ∧ validUtf8 line = true ∧
        trim line ≠ [] ∧ X.auditOfJson line = .ok e := by
  by_cases hutf : validUtf8 line = true
  · by_cases htrim : trim line = []
    · exact Or.inl ⟨by simp [isBlank, hutf, htrim], hutf, htrim⟩
    · have hblank : isBlank line = false := by simp [isBlank, htrim]
      cases h : X.auditOfJson line with
      | error m => exact Or.inr (Or.inl ⟨hblank, parseLine_of_error h, Or.inr ⟨htrim, m, rfl⟩⟩)
      | ok e => exact Or.inr (Or.inr ⟨e, hblank, parseLine_of_ok hutf h, hutf, htrim, rfl⟩)
  · refine Or.inr (Or.inl ⟨?_, ?_, Or.inl (by simpa using hutf)⟩)
    · simp [isBlank, hutf]
    · simp [parseLine, hutf]

/-- The loop of `tip` succeeds when every line that is not blank is an entry. -/
theorem tipLines_eq_ok {i n : Nat} {t : Bytes} {lines : List Bytes} {r : Nat × Bytes} :
    tipLines X i n t lines = .ok r ↔
      ∃ es, (entryLines lines).map (parseLine X) = es.map some ∧ following (n, t) es = r := by
  induction lines generalizing i n t with
  | nil =>
      simp only [tipLines, Except.ok.injEq]
      constructor
      · intro h
        exact ⟨[], rfl, h⟩
      · intro h
        obtain ⟨es, hmap, hes⟩ := h
        have hnil : es = [] := List.map_eq_nil_iff.mp hmap.symm
        subst hnil
        exact hes
  | cons line rest ih =>
      rcases line_cases X line with ⟨hblank, hutf, htrim⟩ | ⟨hblank, hnone, hbad⟩ |
        ⟨e, hblank, hsome, hutf, htrim, hjson⟩
      · rw [tipLines, if_neg (by simp [hutf]), if_pos htrim, entryLines_cons_blank hblank]
        exact ih
      · have hstop : ∃ err, tipLines X i n t (line :: rest) = .error err := by
          unfold tipLines
          rcases hbad with hutf | ⟨htrim, m, hjson⟩
          · exact ⟨_, if_pos hutf⟩
          · by_cases hutf : validUtf8 line = false
            · exact ⟨_, if_pos hutf⟩
            · rw [if_neg hutf, if_neg htrim, hjson]
              exact ⟨_, rfl⟩
        obtain ⟨err, herr⟩ := hstop
        rw [herr, entryLines_cons_entry hblank, List.map_cons, hnone]
        refine ⟨fun h => (by cases h), ?_⟩
        intro h
        obtain ⟨es, hmap, _⟩ := h
        cases es <;> simp at hmap
      · rw [tipLines, if_neg (by simp [hutf]), if_neg htrim, hjson, entryLines_cons_entry hblank,
          List.map_cons, hsome]
        simp only
        rw [ih]
        constructor
        · intro h
          obtain ⟨es, hmap, hes⟩ := h
          exact ⟨e :: es, by rw [hmap]; rfl, hes⟩
        · intro h
          obtain ⟨es, hmap, hes⟩ := h
          cases es with
          | nil => simp at hmap
          | cons f es =>
              obtain ⟨hf, hrest⟩ := List.cons.inj hmap
              have hef : e = f := Option.some.inj hf
              subst hef
              exact ⟨es, hrest, hes⟩

/-- The numbers of the entries it reads decide whether it overflows. -/
theorem tipOverflows_iff {lines : List Bytes} :
    tipOverflows X lines = false ↔
      ∀ e ∈ entriesRead ((entryLines lines).map (parseLine X)), e.seq + 1 < 2 ^ 64 := by
  induction lines with
  | nil => simp [tipOverflows, entryLines, entriesRead]
  | cons line rest ih =>
      unfold tipOverflows
      rcases line_cases X line with ⟨hblank, hutf, htrim⟩ | ⟨hblank, hnone, hbad⟩ |
        ⟨e, hblank, hsome, hutf, htrim, hjson⟩
      · rw [if_neg (by simp [hutf]), if_pos htrim, entryLines_cons_blank hblank]
        exact ih
      · rw [entryLines_cons_entry hblank, List.map_cons, hnone]
        simp only [entriesRead, List.not_mem_nil, false_implies, implies_true, iff_true]
        rcases hbad with hutf | ⟨htrim, m, hjson⟩
        · exact if_pos hutf
        · by_cases hutf : validUtf8 line = false
          · exact if_pos hutf
          · rw [if_neg hutf, if_neg htrim, hjson]
      · rw [if_neg (by simp [hutf]), if_neg htrim, hjson, entryLines_cons_entry hblank,
          List.map_cons, hsome]
        simp only [entriesRead, List.forall_mem_cons, Bool.or_eq_false_iff, decide_eq_false_iff_not,
          not_le, ih]

/-- `verify` finds a log of entries valid when they continue the chain. -/
theorem verifyLines_valid_iff {i k n : Nat} {prev : Bytes} {lines : List Bytes}
    {es : List AuditEntry} (h : (entryLines lines).map (parseLine X) = es.map some) :
    verifyLines X i k prev lines = .ok ⟨n, true, none⟩ ↔
      Linked (linking X) k prev es ∧ n = k + es.length := by
  induction lines generalizing i k prev es with
  | nil =>
      have hnil : es = [] := List.map_eq_nil_iff.mp h.symm
      subst hnil
      simp only [verifyLines, Except.ok.injEq, VerifyReport.mk.injEq, and_true, Linked,
        List.length_nil, Nat.add_zero, true_and]
      exact eq_comm
  | cons line rest ih =>
      rcases line_cases X line with ⟨hblank, hutf, htrim⟩ | ⟨hblank, hnone, _⟩ |
        ⟨e, hblank, hsome, hutf, htrim, hjson⟩
      · rw [entryLines_cons_blank hblank] at h
        rw [verifyLines, if_neg (by simp [hutf]), if_pos htrim]
        exact ih h
      · rw [entryLines_cons_entry hblank, List.map_cons, hnone] at h
        cases es <;> simp at h
      · rw [entryLines_cons_entry hblank, List.map_cons, hsome] at h
        cases es with
        | nil => simp at h
        | cons f es =>
            obtain ⟨hf, hrest⟩ := List.cons.inj h
            have hef : e = f := Option.some.inj hf
            subst hef
            rw [verifyLines, if_neg (by simp [hutf]), if_neg htrim, hjson]
            simp only
            have hlink : ¬ (e.seq ≠ k ∨ e.prev ≠ prev ∨
                e.hash ≠ entryHash X e.seq e.ts e.event e.detail prev) ↔
                ((linking X).seq e = k ∧ (linking X).prev e = prev ∧
                  (linking X).hash e = (linking X).digest e) := by
              simp only [not_or, not_not, linking]
              constructor
              · rintro ⟨hseq, hprev, hhash⟩
                exact ⟨hseq, hprev, by rw [hprev]; exact hhash⟩
              · rintro ⟨hseq, hprev, hhash⟩
                rw [hprev] at hhash
                exact ⟨hseq, hprev, hhash⟩
            by_cases hbad : e.seq ≠ k ∨ e.prev ≠ prev ∨
                e.hash ≠ entryHash X e.seq e.ts e.event e.detail prev
            · rw [if_pos hbad]
              refine ⟨fun h' => (by cases h'), ?_⟩
              intro h'
              exact absurd hbad (hlink.mpr h'.1.1)
            · have hcount : k + (e :: es).length = k + 1 + es.length := by
                rw [List.length_cons]
                omega
              rw [if_neg hbad, ih hrest, hcount]
              exact ⟨fun h' => ⟨⟨hlink.mp hbad, h'.1⟩, h'.2⟩, fun h' => ⟨h'.1.2, h'.2⟩⟩

/-! ## A log that can be opened -/

/-- A log that is there can be read. -/
def Openable (st : Store) (fs : Fs) : Prop :=
  fs.exists (auditPath st) = true → ∃ s, fs.read (auditPath st) = .ok s

/-- The tip of a log that opens is that of its lines. -/
theorem tip_of_openable {fs : Fs} (h : Openable st fs) :
    tip X st fs = tipLines X 0 0 [] (logLines st fs) := by
  unfold tip logLines
  by_cases hexists : fs.exists (auditPath st) = true
  · obtain ⟨s, hs⟩ := h hexists
    rw [if_pos hexists, hs]
  · obtain ⟨e, he⟩ := read_error_of_not_exists (by simpa using hexists)
    rw [if_neg hexists, he]
    rfl

/-- The verdict on a log that opens is that on its lines. -/
theorem verify_of_openable {fs : Fs} (h : Openable st fs) :
    verify X st fs = verifyLines X 0 0 [] (logLines st fs) := by
  unfold verify logLines
  by_cases hexists : fs.exists (auditPath st) = true
  · obtain ⟨s, hs⟩ := h hexists
    rw [if_pos hexists, hs]
  · obtain ⟨e, he⟩ := read_error_of_not_exists (by simpa using hexists)
    rw [if_neg hexists, he]
    rfl

/-- A log that has a tip opens. -/
theorem openable_of_tip {fs : Fs} {r : Nat × Bytes} (h : tip X st fs = .ok r) :
    Openable st fs := by
  intro hexists
  unfold tip at h
  rw [if_pos hexists] at h
  cases hread : fs.read (auditPath st) with
  | error e =>
      rw [hread] at h
      cases h
  | ok s => exact ⟨s, rfl⟩

/-- A log that is kept pins the same beginnings. -/
theorem LogKept.tipIsPrefix_eq {fs fs' : Fs} (h : LogKept st fs fs') (n : Nat) (t : Bytes) :
    tipIsPrefix X st n t fs' = tipIsPrefix X st n t fs := by
  unfold LogKept at h
  unfold tipIsPrefix Fs.exists Fs.read
  rw [h]

theorem LogKept.tip_eq {fs fs' : Fs} (h : LogKept st fs fs') : tip X st fs' = tip X st fs := by
  unfold LogKept at h
  unfold tip Fs.exists Fs.read
  rw [h]

/-! ## Where the readers agree -/

variable (X st) in
/-- `tip` gives up, or its answer is the number of the lines that are not
blank and passes both verifiers; and it stays within 64 bits. -/
structure TipAgrees (fs : Fs) : Prop where
  inRange : tipOverflows X (logLines st fs) = false
  agrees : ∀ n t, tip X st fs = .ok (n, t) → n = (entryLines (logLines st fs)).length ∧
    verify X st fs = .ok ⟨n, true, none⟩ ∧ tipIsPrefix X st n t fs = .ok ()

variable (X st) in
/-- No entry that `tip` reads has the last number of 64 bits, and the entries,
when the log holds nothing else, are a chain. -/
def Intact (fs : Fs) : Prop :=
  (∀ e ∈ entriesRead (parsed X st fs), e.seq + 1 < 2 ^ 64) ∧
    ∀ es : List AuditEntry, parsed X st fs = es.map some → Linked (linking X) 0 [] es

/-- A chain with numbers of 64 bits is no longer than they allow. -/
theorem length_of_linked {es : List AuditEntry} (h : Linked (linking X) 0 [] es)
    (hseq : ∀ e ∈ es, e.seq + 1 < 2 ^ 64) : es.length < 2 ^ 64 := by
  rcases List.eq_nil_or_concat es with hnil | ⟨init, e, he⟩
  · rw [hnil]
    decide
  · rw [List.concat_eq_append] at he
    subst he
    obtain ⟨_, hlast, _, _⟩ := linked_concat.mp h
    have hnumber : e.seq = init.length := by simpa [linking] using hlast
    have hbound := hseq e (by simp)
    rw [List.length_append, List.length_singleton]
    omega

/-- On a log whose entries are a chain the three agree. -/
theorem TipAgrees.of_intact {fs : Fs} (h : Intact X st fs) : TipAgrees X st fs := by
  obtain ⟨hseq, hchain⟩ := h
  refine ⟨tipOverflows_iff.mpr hseq, ?_⟩
  intro n t htip
  have hopen := openable_of_tip htip
  rw [tip_of_openable hopen] at htip
  obtain ⟨es, hmap, hes⟩ := tipLines_eq_ok.mp htip
  have hlinked := hchain es hmap
  have hparsed : parsed X st fs = es.map some := hmap
  have hlen : es.length < 2 ^ 64 := by
    apply length_of_linked hlinked
    intro e he
    apply hseq e
    rw [hparsed, entriesRead_map_some]
    exact he
  rw [following_linked X hlinked hlen] at hes
  obtain ⟨rfl, rfl⟩ := Prod.mk.inj hes
  have hcount : es.length = (entryLines (logLines st fs)).length := by
    have hlens := congrArg List.length hmap
    simpa using hlens.symm
  refine ⟨hcount, ?_, ?_⟩
  · rw [verify_of_openable hopen]
    exact (verifyLines_valid_iff hmap).mpr ⟨hlinked, (Nat.zero_add _).symm⟩
  · by_cases hzero : es.length = 0
    · unfold tipIsPrefix
      rw [if_pos hzero]
    · rw [tipIsPrefix_eq_ok X st (Nat.pos_of_ne_zero hzero)]
      refine ⟨es, ?_, hlinked, rfl, rfl, ?_⟩
      · rw [hcount, List.take_length]
        exact hmap
      · intro line hline
        rw [hcount, List.getElem?_eq_none (Nat.le_refl _)] at hline
        cases hline

/-- Where the three agree the entries are a chain. -/
theorem Intact.of_agrees {fs : Fs} (h : TipAgrees X st fs) : Intact X st fs := by
  refine ⟨tipOverflows_iff.mp h.inRange, ?_⟩
  intro es hmap
  by_cases hopen : Openable st fs
  · have htip : tip X st fs = .ok (following (0, []) es) := by
      rw [tip_of_openable hopen]
      exact tipLines_eq_ok.mpr ⟨es, hmap, rfl⟩
    obtain ⟨_, hverify, _⟩ := h.agrees _ _ htip
    rw [verify_of_openable hopen] at hverify
    exact ((verifyLines_valid_iff hmap).mp hverify).1
  · -- a log that cannot be opened has no lines
    have hnil : logLines st fs = [] := by
      unfold logLines
      cases hread : fs.read (auditPath st) with
      | error e => rfl
      | ok s => exact absurd (fun _ => ⟨s, hread⟩) hopen
    have hes : es = [] := by
      unfold parsed at hmap
      rw [hnil] at hmap
      exact List.map_eq_nil_iff.mp hmap.symm
    rw [hes]
    trivial

end Audit

namespace Anchor

/-! ## Verifying an anchor against its fabric -/

/-- An ASCII letter in lower case. -/
def lowerAscii (b : UInt8) : UInt8 := if 65 ≤ b ∧ b ≤ 90 then b + 32 else b

/-- `str::eq_ignore_ascii_case`. -/
def eqIgnoreAsciiCase (a b : Bytes) : Bool := decide (a.map lowerAscii = b.map lowerAscii)

structure VerifyOutcome where
  signerPubkey : Bytes
  auditLen : Nat
  anchoredHead : Option Bytes
  currentHead : Option Bytes
  fileHash : Bytes
  prevAnchor : Option Bytes
  deriving DecidableEq

/-- The signer must be the expected one, if one is expected. -/
def checkSigner (expectedPubkey : Option Bytes) (file : AnchorFile) : Except Error Unit :=
  match expectedPubkey with
  | none => .ok ()
  | some want =>
      if ¬ eqIgnoreAsciiCase want file.pubkey then
        .error (.corrupt (str "anchor signer " ++ file.pubkey ++
          str " does not match expected key " ++ want))
      else .ok ()

variable (A : AnchorCrates) (st : Store)

/-- Verify an anchor: its signature, its signer, its fabric, and that what it
says of the audit log is still the beginning of the log. -/
def verify (path : Path) (expectedPubkey : Option Bytes) : Sys VerifyOutcome := do
  let bytes ← look (readAnchorFile path)
  let (file, payload) ← look fun _ => checkedAnchor A bytes
  look fun _ => checkSigner expectedPubkey file
  let id ← fabricId st
  if payload.fabricId ≠ id then
    throw (.corrupt (str "anchor belongs to a different fabric"))
  else do
    look (Audit.tipIsPrefix A.toCrates st payload.auditLen payload.auditTip)
    let head ← look st.head
    pure
      { signerPubkey := file.pubkey
        auditLen := payload.auditLen
        anchoredHead := payload.head
        currentHead := head.map hashHex
        fileHash := hashHex (A.blake3 bytes)
        prevAnchor := payload.prevAnchor }

/-! ## What was minted is genuine -/

/-- What the signature scheme promises: keys and signatures of their lengths,
and a signature that is verified under the key it was made with. -/
structure SignsTruly : Prop where
  keyLength : ∀ raw : Keychain.Secret, (A.verifyingKey raw.val).length = 32
  isKey : ∀ raw : Keychain.Secret, A.isKey (A.verifyingKey raw.val) = true
  sigLength : ∀ (raw : Keychain.Secret) (text : Bytes), (A.sign raw.val text).length = 64
  verifies : ∀ (raw : Keychain.Secret) (text : Bytes),
    A.verify (A.verifyingKey raw.val) text (A.sign raw.val text) = true

/-- The document of an anchor is read back, and is not too large to be read. -/
structure Legible (a : Mint) : Prop where
  readBack : ReadBack A a
  small : (a.bytes A).length ≤ MAX_ANCHOR_BYTES

variable {A st}

/-- What `create` signs, and with which key. -/
theorem compose_ok {raw : Keychain.Secret} {n : Nat} {tip : Bytes} {m m' : Machine}
    {payload : AnchorPayload} {file : AnchorFile}
    (h : compose A st raw n tip m = .ok (payload, file) m') :
    payload.kind = str "respawn-anchor" ∧ payload.version = ANCHOR_VERSION ∧
      payload.auditLen = n ∧ payload.auditTip = tip ∧
      file = { format := str "respawn-anchor/v1"
               pubkey := hexEncode (A.verifyingKey raw.val)
               payload := A.anchorPayloadToJson payload
               sig := hexEncode (A.sign raw.val (A.anchorPayloadToJson payload)) } := by
  unfold compose at h
  rw [bind_apply, look_get] at h
  obtain ⟨id, m₁, _, h⟩ := bind_eq_ok.mp h
  obtain ⟨head, m₂, _, h⟩ := bind_eq_ok.mp h
  obtain ⟨_, m₃, _, h⟩ := bind_eq_ok.mp h
  cases h
  exact ⟨rfl, rfl, rfl, rfl, rfl⟩

/-- An anchor was minted after an opening that succeeded. -/
theorem minted_ok {out : Path} {m : Machine} {a : Mint} (h : minted A st out m = some a) :
    ∃ raw note n tip m₁ m₂, opening A st out m = .ok (raw, note, n, tip) m₁ ∧
      compose A st raw n tip m₁ = .ok (a.payload, a.file) m₂ ∧
      succeeded (atomicWrite out (a.bytes A) m₂) = true ∧ a.out = out ∧
      a.found = marker st m₁.fs := by
  unfold minted at h
  split at h
  · cases h
  case _ raw note n tip m₁ hopening =>
    split at h
    · cases h
    case _ payload file m₂ hcompose =>
      split at h
      case _ hwrite =>
        cases h
        exact ⟨raw, note, n, tip, m₁, m₂, hopening, hcompose, hwrite, rfl, rfl⟩
      · cases h

/-- What the opening found is the end of the log. -/
theorem tip_of_opening {out : Path} {m m₁ : Machine} {raw : Keychain.Secret}
    {note : Option Bytes} {n : Nat} {tip : Bytes}
    (h : opening A st out m = .ok (raw, note, n, tip) m₁) :
    Audit.tip A.toCrates st m₁.fs = .ok (n, tip) := by
  unfold opening at h
  obtain ⟨_, m₂, _, h⟩ := bind_eq_ok.mp h
  obtain ⟨⟨raw', place, note'⟩, m₃, _, h⟩ := bind_eq_ok.mp h
  obtain ⟨⟨n', tip'⟩, m₄, htip, hend⟩ := bind_eq_ok.mp h
  obtain ⟨htip, rfl⟩ := look_eq_ok.mp htip
  cases hend
  exact htip

/-- What was composed passes its own check. -/
theorem checkedAnchor_of_compose {raw : Keychain.Secret} {n : Nat} {tip : Bytes} {m m' : Machine}
    {payload : AnchorPayload} {file : AnchorFile} (hsigns : SignsTruly A)
    (h : compose A st raw n tip m = .ok (payload, file) m')
    (hdoc : A.anchorOfJson (A.anchorToJson file) = .ok file)
    (htext : A.anchorPayloadOfJson file.payload = .ok payload) :
    checkedAnchor A (A.anchorToJson file) = .ok (file, payload) := by
  obtain ⟨hkind, hversion, _, _, hfile⟩ := compose_ok h
  have hsignature : checkSignature A file = .ok () := by
    unfold checkSignature
    rw [hfile]
    simp only [hexDecode_hexEncode]
    rw [if_neg (by simp [hsigns.keyLength raw]), if_neg (by simp [hsigns.isKey raw]),
      if_neg (by simp [hsigns.sigLength raw]), if_neg (by simp [hsigns.verifies raw])]
  have hformat : file.format = str "respawn-anchor/v1" := by rw [hfile]
  unfold checkedAnchor
  rw [hdoc]
  simp only [hformat, ne_eq, not_true_eq_false, if_false, hsignature, htext, hkind, hversion,
    or_self]

/-- **A minted anchor passes its own check.** -/
theorem checkedAnchor_of_minted {out : Path} {m : Machine} {a : Mint} (hsigns : SignsTruly A)
    (h : minted A st out m = some a) (hread : ReadBack A a) :
    checkedAnchor A (a.bytes A) = .ok (a.file, a.payload) := by
  obtain ⟨raw, note, n, tip, m₁, m₂, _, hcompose, _, _, _⟩ := minted_ok h
  exact checkedAnchor_of_compose hsigns hcompose hread.1 hread.2

/-- An anchor file under the cap is read whole. -/
theorem readAnchorFile_of_read {fs : Fs} {p : Path} {bytes : Bytes} (h : fs.read p = .ok bytes)
    (hsmall : bytes.length ≤ MAX_ANCHOR_BYTES) : readAnchorFile p fs = .ok bytes := by
  unfold Fs.read at h
  unfold readAnchorFile
  cases hmeta : fs.metadata p with
  | error e =>
      rw [hmeta] at h
      cases h
  | ok x =>
      rw [hmeta] at h
      cases x with
      | file d =>
          cases h
          exact if_neg (Nat.not_lt.mpr hsmall)
      | dir => cases h
      | symlink t => cases h

/-! ## Anchors of an intact log -/

variable (A st) in
/-- The anchor's file is as it was written, and so is the identity of the
fabric; HEAD can be read. -/
structure Unaltered (a : Mint) (fs : Fs) : Prop where
  document : fs.read a.out = .ok (a.bytes A)
  identity : ∃ s, fs.readToString (fabricIdPath st) = .ok s ∧ trim s = a.payload.fabricId
  head : ∃ h, st.head fs = .ok h

/-- An anchor whose covered entries are still there passes. -/
theorem verify_of_prefix {out : Path} {m m' : Machine} {a : Mint} {expected : Option Bytes}
    (hsigns : SignsTruly A) (h : minted A st out m = some a) (hlegible : Legible A a)
    (hsame : Unaltered A st a m'.fs) (hsigner : checkSigner expected a.file = .ok ())
    (hbegins : Audit.tipIsPrefix A.toCrates st a.payload.auditLen a.payload.auditTip m'.fs =
      .ok ()) :
    succeeded (verify A st a.out expected m') = true := by
  obtain ⟨s, hid, htrim⟩ := hsame.identity
  obtain ⟨head, hhead⟩ := hsame.head
  have hfile := readAnchorFile_of_read hsame.document hlegible.small
  have hchecked := checkedAnchor_of_minted hsigns h hlegible.readBack
  have hfabric : fabricId st m' = .ok a.payload.fabricId m' := by
    unfold fabricId
    rw [bind_apply, look_get]
    simp only [hid, htrim]
    rfl
  have hlook : ∀ {α : Type} {f : Fs → Except Error α} {x : α}, f m'.fs = .ok x →
      look f m' = .ok x m' := fun hf => look_eq_ok.mpr ⟨hf, rfl⟩
  unfold verify
  rw [bind_apply, hlook hfile]
  simp only
  rw [bind_apply, hlook (f := fun _ => checkedAnchor A (a.bytes A)) hchecked]
  simp only
  rw [bind_apply, hlook (f := fun _ => checkSigner expected a.file) hsigner]
  simp only
  rw [bind_apply, hfabric]
  simp only [ne_eq, not_true_eq_false, if_false]
  rw [bind_apply, hlook hbegins]
  simp only
  rw [bind_apply, hlook hhead]
  rfl

variable (A st)

/-- On this log `tip` answers only what the verifiers accept, and an anchor
made of it passes for as long as the log and the anchor stay as they are. -/
structure Checkpoints (fs : Fs) : Prop where
  tip : Audit.TipAgrees A.toCrates st fs
  verified : ∀ (out : Path) (m : Machine) (a : Mint), minted A st out m = some a →
    Audit.LogKept st fs (finalState (opening A st out m)).fs → Legible A a →
    ∀ m' : Machine, Unaltered A st a m'.fs → Audit.LogKept st fs m'.fs →
    ∀ expected, checkSigner expected a.file = .ok () →
      succeeded (verify A st a.out expected m') = true

/-- **When a checkpoint is one the verifiers accept.**  `tip` never notes down
a log that its verifiers reject, and never overflows, exactly where no entry
that it reads has the last number of 64 bits and the entries, if nothing else
is in the log, carry the numbers, links and hashes of a chain. -/
theorem checkpoints_iff (hsigns : SignsTruly A) (fs : Fs) :
    Checkpoints A st fs ↔ Audit.Intact A.toCrates st fs := by
  constructor
  · intro h
    exact Audit.Intact.of_agrees h.tip
  · intro hintact
    have hagrees := Audit.TipAgrees.of_intact hintact
    refine ⟨hagrees, ?_⟩
    intro out m a hminted hsigned hlegible m' hsame hkept expected hsigner
    obtain ⟨raw, note, n, t, m₁, m₂, hopening, hcompose, _, _, _⟩ := minted_ok hminted
    obtain ⟨_, _, hlen, htip, _⟩ := compose_ok hcompose
    rw [hopening] at hsigned
    have hsigned' : Audit.LogKept st fs m₁.fs := hsigned
    have hend := tip_of_opening hopening
    rw [hsigned'.tip_eq] at hend
    obtain ⟨_, _, hbegins⟩ := hagrees.agrees n t hend
    apply verify_of_prefix hsigns hminted hlegible hsame hsigner
    rw [hlen, htip, hkept.tipIsPrefix_eq]
    exact hbegins

/-! ## Two small logs -/

/-- The entry `snap x` under a number that does not continue any log. -/
def strayEntry : AuditEntry := { Audit.soleEntry with seq := 7 }

/-- Crates that read these two entries. -/
def checkpointCrates : AnchorCrates :=
  { anchorCrates with
    auditToJson := tableEncode [(str "0 snap x", Audit.soleEntry), (str "7 snap x", strayEntry)]
    auditOfJson := tableDecode [(str "0 snap x", Audit.soleEntry), (str "7 snap x", strayEntry)] }

/-- A fabric with a signing key and this text in its log. -/
def checkpointFabric (text : Bytes) : Fs :=
  Fs.build (Store.fabricNodes ⟨[str "w"]⟩ [] ++
    [(fabricIdPath ⟨[str "w"]⟩, Store.plainFile (str "fabric")),
     (Keychain.secretPath ⟨[str "w"]⟩, Store.plainFile (hexEncode anchorSeed)),
     (Audit.auditPath ⟨[str "w"]⟩, Store.plainFile text)])

/-- The crates of the checkpoint sign truly. -/
theorem checkpointCrates_signs : SignsTruly checkpointCrates where
  keyLength raw := raw.property
  isKey _ := rfl
  sigLength raw text := by
    show (padSignature raw.val text).length = 64
    rw [padSignature, List.length_append, (padHash raw.val).property, (padHash text).property]
  verifies _ _ := decide_eq_true rfl

/-- An anchor of a log whose only entry has the number seven covers eight
entries, which no verifier finds. -/
theorem tip_trusts_number :
    Audit.tip checkpointCrates.toCrates ⟨[str "w"]⟩ (checkpointFabric (str "7 snap x" ++ [10])) =
        .ok (8, strayEntry.hash) ∧
      (Audit.verify checkpointCrates.toCrates ⟨[str "w"]⟩
        (checkpointFabric (str "7 snap x" ++ [10]))).toOption = some ⟨0, false, some 7⟩ ∧
      ¬ Checkpoints checkpointCrates ⟨[str "w"]⟩ (checkpointFabric (str "7 snap x" ++ [10])) := by
  have htip : Audit.tip checkpointCrates.toCrates ⟨[str "w"]⟩
      (checkpointFabric (str "7 snap x" ++ [10])) = .ok (8, strayEntry.hash) := by
    decide +kernel
  refine ⟨htip, by decide +kernel, ?_⟩
  intro h
  have hcount := (h.tip.agrees _ _ htip).1
  revert hcount
  decide +kernel

/-- Crates that sign, and that write the log as JSON. -/
def signingCrates : AnchorCrates :=
  { anchorCrates with
    auditToJson := Audit.jsonLogCrates.auditToJson
    auditOfJson := Audit.jsonLogCrates.auditOfJson
    tupleToJson := Audit.jsonLogCrates.tupleToJson }

theorem signingCrates_signs : SignsTruly signingCrates :=
  ⟨checkpointCrates_signs.keyLength, checkpointCrates_signs.isKey,
    checkpointCrates_signs.sigLength, checkpointCrates_signs.verifies⟩

/-- The text of a log of two events whose texts JSON escapes. -/
def chainText : Bytes := Audit.logText Audit.jsonLogCrates [Audit.snapEntry, Audit.purgeEntry]

/-- An anchor of two linked entries passes. -/
theorem checkpoints_linked :
    Audit.tip signingCrates.toCrates ⟨[str "w"]⟩ (checkpointFabric chainText) =
        .ok (2, Audit.purgeEntry.hash) ∧
      Checkpoints signingCrates ⟨[str "w"]⟩ (checkpointFabric chainText) := by
  have hparsed : Audit.parsed signingCrates.toCrates ⟨[str "w"]⟩ (checkpointFabric chainText) =
      [Audit.snapEntry, Audit.purgeEntry].map some := by
    decide +kernel
  refine ⟨by decide +kernel, (checkpoints_iff signingCrates ⟨[str "w"]⟩
    signingCrates_signs _).mpr ?_⟩
  unfold Audit.Intact
  rw [hparsed]
  refine ⟨by decide +kernel, ?_⟩
  intro es hes
  rw [← List.map_injective_iff.mpr (Option.some_injective _) hes]
  exact Audit.AuditGrown.linked Audit.jsonLogCrates _ Audit.logOfTwo_grown Audit.logOfTwo_encodes
    (by decide)

end Anchor

end Respawn
