import Respawn.AuditRun

/-!
# Appending after a torn append

A crash may leave any beginning of the log that was being written.  The next
`record` reads the lines that are there, passes over one that it cannot parse,
and appends its entry where the file ends, which need not be where a line ends:
the new entry is then glued to what was left of the old one, and lost with it.

* `append_survives_iff` — the new entry is in the log, and the log goes on from
  it, exactly when what the crash left ends with a line.
-/

namespace Respawn

open ByteStr FileTree StateLogic HashChain

variable (X : Crates) (st : Store)

namespace Audit

/-- The bytes are the beginning of a log that `record` built of these entries. -/
def CutFrom (text : Bytes) (es : List AuditEntry) : Prop :=
  (∃ m, AuditGrown X st m es) ∧ text <+: logText X es

/-- The entries that can be read in a log. -/
def entriesOf (text : Bytes) : List AuditEntry := (fileLines text).filterMap (parseLine X)

/-- What the JSON decoder makes of an entry of which a part is missing, and of
one to which another is glued: neither is an entry. -/
structure Separates (f e : AuditEntry) : Prop where
  cut : ∀ torn, torn <+: X.auditToJson f → torn ≠ X.auditToJson f → parseLine X torn = none
  glued : ∀ torn, torn <+: X.auditToJson f → torn ≠ [] →
    parseLine X (torn ++ X.auditToJson e) = none

/-- The entry that a `record` made on a log with this text stands in the log,
linked to the last entry that could be read before, and the next `record`
continues from it. -/
structure Survives (text event detail : Bytes) (m m' : Machine) : Prop where
  present : ∃ line ∈ logLines st m'.fs,
    parseLine X line = some (nextEntry X st event detail m.fs m.clock)
  linked : (nextEntry X st event detail m.fs m.clock).prev =
    lastHash (linking X) [] (entriesOf X text)
  continued : ∀ event' detail' clock,
    (nextEntry X st event' detail' m'.fs clock).seq =
        ((nextEntry X st event detail m.fs m.clock).seq + 1) % 2 ^ 64 ∧
      (nextEntry X st event' detail' m'.fs clock).prev =
        (nextEntry X st event detail m.fs m.clock).hash

variable {X st}

/-! ## Where a log is cut -/

theorem logText_cons (e : AuditEntry) (es : List AuditEntry) :
    logText X (e :: es) = (X.auditToJson e ++ [10]) ++ logText X es := rfl

theorem logText_concat (es : List AuditEntry) (e : AuditEntry) :
    logText X (es ++ [e]) = logText X es ++ (X.auditToJson e ++ [10]) := by
  simp [logText]

/-- The text of a log ends with the end of a line. -/
theorem lined_logText (es : List AuditEntry) : Lined (logText X es) := by
  rcases List.eq_nil_or_concat es with rfl | ⟨init, e, rfl⟩
  · exact Or.inl rfl
  · rw [List.concat_eq_append, logText_concat]
    exact lined_append _ _

/-- A beginning of a log is some of its lines and, maybe, a piece of the next. -/
theorem cut_of_prefix {text : Bytes} {es : List AuditEntry} (h : text <+: logText X es) :
    ∃ front back torn, es = front ++ back ∧ text = logText X front ++ torn ∧
      (torn = [] ∨ ∃ f rest, back = f :: rest ∧ torn ≠ [] ∧ torn <+: X.auditToJson f) := by
  induction es generalizing text with
  | nil =>
      have hnil : text = [] := List.prefix_nil.mp h
      exact ⟨[], [], [], rfl, hnil, Or.inl rfl⟩
  | cons e es ih =>
      rw [logText_cons] at h
      rcases List.prefix_or_prefix_of_prefix h (List.prefix_append _ _) with hshort | hlong
      · rcases List.prefix_concat_iff.mp hshort with hline | hpiece
        · exact ⟨[e], es, [], rfl, by rw [hline]; simp [logText], Or.inl rfl⟩
        · by_cases hnil : text = []
          · exact ⟨[], e :: es, [], rfl, hnil, Or.inl rfl⟩
          · exact ⟨[], e :: es, text, rfl, rfl, Or.inr ⟨e, es, rfl, hnil, hpiece⟩⟩
      · obtain ⟨text', rfl⟩ := hlong
        obtain ⟨front, back, torn, rfl, rfl, htorn⟩ :=
          ih ((List.prefix_append_right_inj _).mp h)
        refine ⟨e :: front, back, torn, rfl, ?_, htorn⟩
        rw [logText_cons, List.append_assoc _ (logText X front)]

/-- A piece of a line does not end with a line. -/
theorem not_lined_of_torn {front : List AuditEntry} {f : AuditEntry} {torn : Bytes}
    (hf : Encodes X f) (hne : torn ≠ []) (hpiece : torn <+: X.auditToJson f) :
    ¬ Lined (logText X front ++ torn) := by
  intro h
  obtain ⟨init, b, rfl⟩ : ∃ init b, torn = init ++ [b] := by
    rcases List.eq_nil_or_concat torn with hnil | ⟨init, b, hb⟩
    · exact absurd hnil hne
    · exact ⟨init, b, by rw [hb, List.concat_eq_append]⟩
  rcases h with hnil | ⟨pre, hpre⟩
  · simp at hnil
  · rw [← List.append_assoc] at hpre
    have hb : b = 10 := (List.append_inj' hpre rfl).2 |> List.cons.inj |>.1
    exact hf.oneLine (hb ▸ hpiece.subset (by simp))

/-! ## Where the log goes on -/

/-- A last line that does not parse is passed over by `resume`. -/
theorem resume_snoc_none {lines : List Bytes} {line : Bytes}
    (hvalid : ∀ l ∈ lines, validUtf8 l = true) (h : parseLine X line = none) :
    resume X (lines ++ [line]) = resume X lines := by
  have hwhole : lines.takeWhile validUtf8 = lines := List.takeWhile_eq_self_iff.mpr hvalid
  unfold resume
  rw [List.takeWhile_append_of_pos hvalid, hwhole, List.foldl_append]
  by_cases hutf : validUtf8 line = true
  · cases hjson : X.auditOfJson line with
    | ok e => simp [parseLine, hutf, hjson, Except.toOption] at h
    | error m => simp [hutf, hjson]
  · simp [hutf]

/-- A last line that parses decides what `resume` returns. -/
theorem resume_snoc_some {lines : List Bytes} {line : Bytes} {e : AuditEntry}
    (hvalid : ∀ l ∈ lines, validUtf8 l = true) (h : parseLine X line = some e) :
    resume X (lines ++ [line]) = ((e.seq + 1) % 2 ^ 64, e.hash) := by
  have hutf : validUtf8 line = true := by
    by_contra hno
    simp [parseLine, hno] at h
  have hjson : X.auditOfJson line = .ok e := by
    cases hdecode : X.auditOfJson line with
    | ok f => simpa [parseLine, hutf, hdecode, Except.toOption] using h
    | error m => simp [parseLine, hutf, hdecode, Except.toOption] at h
  unfold resume
  rw [List.takeWhile_append_of_pos hvalid, List.foldl_append]
  simp [hutf, hjson]

/-- The hash that follows is the last one, whatever the numbers are. -/
theorem following_snd {n : Nat} {h : Bytes} {es : List AuditEntry} :
    (following (n, h) es).2 = lastHash (linking X) h es := by
  induction es generalizing n h with
  | nil => rfl
  | cons e es ih => exact ih

/-- The next sequence number is a machine word. -/
theorem following_lt {es : List AuditEntry} : (following (0, []) es).1 < 2 ^ 64 := by
  rcases List.eq_nil_or_concat es with rfl | ⟨init, e, rfl⟩
  · decide
  · rw [List.concat_eq_append]
    simp only [following, List.foldl_append, List.foldl_cons, List.foldl_nil]
    exact Nat.mod_lt _ (by decide)

/-- The lines of a log are UTF-8. -/
theorem encoded_valid {es : List AuditEntry} (hes : ∀ e ∈ es, Encodes X e) :
    ∀ l ∈ es.map X.auditToJson, validUtf8 l = true := by
  intro l hl
  obtain ⟨e, he, rfl⟩ := List.mem_map.mp hl
  exact (hes e he).utf8

theorem encoded_parsed {e : AuditEntry} (he : Encodes X e) :
    parseLine X (X.auditToJson e) = some e := by
  simp [parseLine, he.utf8, he.decode, Except.toOption]

/-- Every entry that `record` made has the number that followed. -/
theorem AuditGrown.numbered {m : Machine} {es : List AuditEntry} (h : AuditGrown X st m es)
    (hes : ∀ e ∈ es, Encodes X e) {front back : List AuditEntry} {f : AuditEntry}
    (heq : es = front ++ f :: back) : f.seq = (following (0, []) front).1 := by
  induction h generalizing back with
  | start _ => simp at heq
  | elsewhere _ _ _ ih => exact ih hes heq
  | @record m m' es event detail h hrun ih =>
      have hold : ∀ e ∈ es, Encodes X e := fun e he => hes e (List.mem_append_left _ he)
      rcases List.eq_nil_or_concat back with rfl | ⟨init, last, rfl⟩
      · obtain ⟨hes', hlast⟩ := List.append_inj' heq rfl
        have hf : nextEntry X st event detail m.fs m.clock = f := (List.cons.inj hlast).1
        have hresume : resume X (logLines st m.fs) = following (0, []) es := by
          rw [logLines_of_logIs st (AuditGrown.logIs X st h), fileLines_logText X hold,
            resume_encoded X hold]
        rw [← hf, ← hes', ← hresume]
        rfl
      · rw [List.concat_eq_append, ← List.cons_append, ← List.append_assoc] at heq
        exact ih hold (List.append_inj' heq rfl).1

/-! ## What the crash left ends with a line -/

/-- The lines of a log whose last line is cut. -/
theorem fileLines_torn {front : List AuditEntry} (hfront : ∀ e ∈ front, Encodes X e)
    {torn : Bytes} (hne : torn ≠ []) (hline : 10 ∉ torn) :
    fileLines (logText X front ++ torn) = front.map X.auditToJson ++ [torn] := by
  have hone : ∀ (s acc : Bytes), 10 ∉ s → acc ≠ [] ∨ s ≠ [] →
      fileLinesAux acc s = [acc.reverse ++ s] := by
    intro s
    induction s with
    | nil =>
        intro acc _ h
        simpa [fileLinesAux] using h
    | cons b s ih =>
        intro acc hs _
        have hb : b ≠ 10 := fun heq => hs (by simp [heq])
        rw [fileLinesAux, if_neg hb, ih (b :: acc) (fun hin => hs (List.mem_cons_of_mem _ hin))
          (Or.inl (by simp))]
        simp
  rw [fileLines_lined (lined_logText front), fileLines_logText X hfront]
  unfold fileLines
  rw [hone torn [] hline (Or.inr hne)]
  rfl

/-- After whole lines the new entry has a line of its own. -/
theorem Survives.of_whole {front : List AuditEntry} {event detail : Bytes} {m m' : Machine}
    (hfront : ∀ e ∈ front, Encodes X e) (hlog : LogIs st m.fs (logText X front))
    (hnew : Encodes X (nextEntry X st event detail m.fs m.clock))
    (hrun : record X st event detail m = .ok () m') :
    Survives X st (logText X front) event detail m m' := by
  have hall : ∀ e ∈ front ++ [nextEntry X st event detail m.fs m.clock], Encodes X e := by
    intro e he
    rcases List.mem_append.mp he with hold | hlast
    · exact hfront e hold
    · rw [List.mem_singleton.mp hlast]
      exact hnew
  have hlog' := record_logIs X st hlog hrun
  rw [← logText_concat] at hlog'
  have hlines := logLines_of_logIs st hlog'
  rw [fileLines_logText X hall] at hlines
  have hresume : resume X (logLines st m.fs) = following (0, []) front := by
    rw [logLines_of_logIs st hlog, fileLines_logText X hfront, resume_encoded X hfront]
  have hresume' : resume X (logLines st m'.fs) =
      (((nextEntry X st event detail m.fs m.clock).seq + 1) % 2 ^ 64,
        (nextEntry X st event detail m.fs m.clock).hash) := by
    rw [hlines, resume_encoded X hall]
    simp [following]
  refine ⟨⟨_, ?_, encoded_parsed hnew⟩, ?_, ?_⟩
  · rw [hlines]
    exact List.mem_map_of_mem (by simp)
  · have hread : entriesOf X (logText X front) = front := by
      unfold entriesOf
      rw [fileLines_logText X hfront, List.filterMap_map]
      have hself : ∀ e ∈ front, (parseLine X ∘ X.auditToJson) e = some e :=
        fun e he => encoded_parsed (hfront e he)
      rw [List.filterMap_congr hself, List.filterMap_some]
    rw [hread, ← following_snd (n := 0), ← hresume]
    rfl
  · intro event' detail' clock
    have hseq : (nextEntry X st event' detail' m'.fs clock).seq =
        (resume X (logLines st m'.fs)).1 := rfl
    have hprev : (nextEntry X st event' detail' m'.fs clock).prev =
        (resume X (logLines st m'.fs)).2 := rfl
    rw [hseq, hprev, hresume']
    exact ⟨rfl, rfl⟩

/-- After a piece of a line the log does not go on from the new entry. -/
theorem not_survives_of_torn {m₀ m m' : Machine} {front rest : List AuditEntry} {f : AuditEntry}
    {torn event detail : Bytes} (hgrown : AuditGrown X st m₀ (front ++ f :: rest))
    (hes : ∀ e ∈ front ++ f :: rest, Encodes X e) (hne : torn ≠ [])
    (hpiece : torn <+: X.auditToJson f) (hlog : LogIs st m.fs (logText X front ++ torn))
    (hnew : Encodes X (nextEntry X st event detail m.fs m.clock))
    (hseparates : Separates X f (nextEntry X st event detail m.fs m.clock))
    (hrun : record X st event detail m = .ok () m') :
    ¬ Survives X st (logText X front ++ torn) event detail m m' := by
  intro h
  have hfront : ∀ e ∈ front, Encodes X e := fun e he => hes e (List.mem_append_left _ he)
  have hf : Encodes X f := hes f (by simp)
  have hvalid := encoded_valid hfront
  have hline : 10 ∉ torn := fun hin => hf.oneLine (hpiece.subset hin)
  have hlt : (following (0, []) front).1 < 2 ^ 64 := following_lt
  -- the number of the new entry
  have hseq : (nextEntry X st event detail m.fs m.clock).seq = (following (0, []) front).1 ∨
      (nextEntry X st event detail m.fs m.clock).seq =
        ((following (0, []) front).1 + 1) % 2 ^ 64 := by
    have hresume : (nextEntry X st event detail m.fs m.clock).seq =
        (resume X (front.map X.auditToJson ++ [torn])).1 := by
      rw [← fileLines_torn hfront hne hline, ← logLines_of_logIs st hlog]
      rfl
    rw [hresume]
    by_cases hwhole : torn = X.auditToJson f
    · right
      rw [hwhole, resume_snoc_some hvalid (encoded_parsed hf), hgrown.numbered hes rfl]
    · left
      rw [resume_snoc_none hvalid (hseparates.cut torn hpiece hwhole), resume_encoded X hfront]
  -- the number after the line to which it was glued
  have hafter : (nextEntry X st event detail m'.fs m.clock).seq =
      (following (0, []) front).1 := by
    have hlog' := record_logIs X st hlog hrun
    have hlines := logLines_of_logIs st hlog'
    have hjson : 10 ∉ torn ++ X.auditToJson (nextEntry X st event detail m.fs m.clock) := by
      intro hin
      rcases List.mem_append.mp hin with hin | hin
      · exact hline hin
      · exact hnew.oneLine hin
    have hnonempty : X.auditToJson (nextEntry X st event detail m.fs m.clock) ≠ [] := by
      intro hnil
      exact hnew.ink (by rw [hnil]; rfl)
    have hcr : stripCr (torn ++ X.auditToJson (nextEntry X st event detail m.fs m.clock)) =
        torn ++ X.auditToJson (nextEntry X st event detail m.fs m.clock) := by
      apply if_neg
      rw [List.getLast?_append_of_ne_nil _ hnonempty]
      exact hnew.noCr
    have htext : logText X front ++ torn ++
        (X.auditToJson (nextEntry X st event detail m.fs m.clock) ++ [10]) =
        logText X front ++
          ((torn ++ X.auditToJson (nextEntry X st event detail m.fs m.clock)) ++ 10 :: []) := by
      simp
    rw [htext, fileLines_lined (lined_logText front), fileLines_logText X hfront,
      fileLines_append hjson, hcr] at hlines
    show (resume X (logLines st m'.fs)).1 = _
    rw [hlines]
    show (resume X (front.map X.auditToJson ++ [_])).1 = _
    rw [resume_snoc_none hvalid (hseparates.glued torn hpiece hne), resume_encoded X hfront]
  have hnext := (h.continued event detail m.clock).1
  rw [hafter] at hnext
  rcases hseq with hseq | hseq
  · rw [hseq] at hnext
    omega
  · rw [hseq] at hnext
    omega

variable (X st)

/-- **When an append survives a torn append.**  On a log of which a crash left
some beginning, the next `record` leaves its entry in the log, linked to the
last entry before it and continued by the entry after it, exactly when that
beginning is empty or ends with the end of a line. -/
theorem append_survives_iff {es : List AuditEntry} {text event detail : Bytes} {m m' : Machine}
    (hcut : CutFrom X st text es) (hes : ∀ e ∈ es, Encodes X e) (hlog : LogIs st m.fs text)
    (hnew : Encodes X (nextEntry X st event detail m.fs m.clock))
    (hseparates : ∀ f ∈ es, Separates X f (nextEntry X st event detail m.fs m.clock))
    (hrun : record X st event detail m = .ok () m') :
    Survives X st text event detail m m' ↔ Lined text := by
  obtain ⟨⟨m₀, hgrown⟩, hbegins⟩ := hcut
  obtain ⟨front, back, torn, rfl, rfl, htorn⟩ := cut_of_prefix hbegins
  rcases htorn with rfl | ⟨f, rest, rfl, hne, hpiece⟩
  · rw [List.append_nil] at hlog ⊢
    have hfront : ∀ e ∈ front, Encodes X e := fun e he => hes e (List.mem_append_left _ he)
    exact iff_of_true (Survives.of_whole hfront hlog hnew hrun) (lined_logText front)
  · apply iff_of_false
    · exact not_survives_of_torn hgrown hes hne hpiece hlog hnew
        (hseparates f (by simp)) hrun
    · exact not_lined_of_torn (hes f (by simp)) hne hpiece

/-! ## A crash in the first append -/

/-- The entry that `record` makes of `snap y` after that of `snap x`. -/
def secondEntry : AuditEntry where
  seq := 1
  ts := 0
  event := str "snap"
  detail := str "y"
  prev := soleEntry.hash
  hash := entryHash (smallCrates [] [] []) 1 0 (str "snap") (str "y") soleEntry.hash

/-- Crates whose JSON forms of the two are `0 snap x` and `1 snap y`. -/
def tornCrates : Crates :=
  smallCrates [] [(str "0 snap x", soleEntry), (str "1 snap y", secondEntry)] []

/-- The machine after `snap x` was recorded on a new fabric. -/
def firstRecorded : Machine :=
  finalState (record tornCrates ⟨[str "w"]⟩ (str "snap") (str "x")
    (Machine.start (Fs.build (Store.fabricNodes ⟨[str "w"]⟩ []))))

/-- A machine on which that append was cut after its first byte. -/
def cutMachine : Machine := Machine.start (logFabric (str "0"))

/-- The first append grows the empty log by the first entry. -/
theorem firstRecorded_grown : AuditGrown tornCrates ⟨[str "w"]⟩ firstRecorded [soleEntry] := by
  have hentry : nextEntry tornCrates ⟨[str "w"]⟩ (str "snap") (str "x")
      (Machine.start (Fs.build (Store.fabricNodes ⟨[str "w"]⟩ []))).fs
      (Machine.start (Fs.build (Store.fabricNodes ⟨[str "w"]⟩ []))).clock = soleEntry := by
    decide +kernel
  have hstart : LogIs ⟨[str "w"]⟩
      (Machine.start (Fs.build (Store.fabricNodes ⟨[str "w"]⟩ []))).fs [] :=
    ⟨by decide +kernel, Or.inl ⟨by decide +kernel, rfl⟩⟩
  have hgrown := AuditGrown.record (X := tornCrates) (AuditGrown.start hstart)
    (eq_ok_of_succeeded (r := record tornCrates ⟨[str "w"]⟩ (str "snap") (str "x")
      (Machine.start (Fs.build (Store.fabricNodes ⟨[str "w"]⟩ [])))) (by decide +kernel))
  rw [hentry] at hgrown
  exact hgrown

/-- Both entries read back from the line they are written as. -/
theorem tornCrates_encodes {e : AuditEntry} (h : e = soleEntry ∨ e = secondEntry) :
    Encodes tornCrates e := by
  rcases h with rfl | rfl
  · exact ⟨by decide +kernel, by decide +kernel, by decide +kernel, by decide +kernel,
      by decide +kernel⟩
  · exact ⟨by decide +kernel, by decide +kernel, by decide +kernel, by decide +kernel,
      by decide +kernel⟩

/-- The entry that is glued to the first byte of another cannot be read. -/
theorem torn_append_lost :
    CutFrom tornCrates ⟨[str "w"]⟩ (str "0") [soleEntry] ∧
      LogIs ⟨[str "w"]⟩ cutMachine.fs (str "0") ∧
      (∃ m', record tornCrates ⟨[str "w"]⟩ (str "snap") (str "x") cutMachine = .ok () m' ∧
        ¬ Survives tornCrates ⟨[str "w"]⟩ (str "0") (str "snap") (str "x") cutMachine m') := by
  refine ⟨⟨⟨_, firstRecorded_grown⟩, by decide +kernel⟩, ⟨by decide +kernel, Or.inr ?_⟩, ?_⟩
  · exact ⟨⟨str "0", 0o644, 0⟩, by decide +kernel, rfl⟩
  · refine ⟨_, eq_ok_of_succeeded (by decide +kernel), ?_⟩
    intro h
    obtain ⟨line, hline, hparse⟩ := h.present
    have hlines : logLines ⟨[str "w"]⟩ (finalState (record tornCrates ⟨[str "w"]⟩ (str "snap")
        (str "x") cutMachine)).fs = [str "00 snap x"] := by decide +kernel
    rw [hlines, List.mem_singleton] at hline
    have hnone : parseLine tornCrates (str "00 snap x") = none := by decide +kernel
    rw [hline, hnone] at hparse
    cases hparse

/-- A log cut after a whole line takes the next append. -/
theorem append_survives_whole :
    ∃ m', record tornCrates ⟨[str "w"]⟩ (str "snap") (str "y") firstRecorded = .ok () m' ∧
      Survives tornCrates ⟨[str "w"]⟩ (str "0 snap x" ++ [10]) (str "snap") (str "y")
        firstRecorded m' := by
  have hentry : nextEntry tornCrates ⟨[str "w"]⟩ (str "snap") (str "y") firstRecorded.fs
      firstRecorded.clock = secondEntry := by decide +kernel
  have htext : logText tornCrates [soleEntry] = str "0 snap x" ++ [10] := by decide +kernel
  have hlog := firstRecorded_grown.logIs
  rw [htext] at hlog
  have hrun : record tornCrates ⟨[str "w"]⟩ (str "snap") (str "y") firstRecorded = .ok () _ :=
    eq_ok_of_succeeded (by decide +kernel)
  have hcut : CutFrom tornCrates ⟨[str "w"]⟩ (str "0 snap x" ++ [10]) [soleEntry] :=
    ⟨⟨_, firstRecorded_grown⟩, htext ▸ List.prefix_refl _⟩
  refine ⟨_, hrun, (append_survives_iff tornCrates ⟨[str "w"]⟩ hcut ?_ hlog ?_ ?_ hrun).mpr
    (Or.inr ⟨str "0 snap x", rfl⟩)⟩
  · intro e he
    exact tornCrates_encodes (Or.inl (List.mem_singleton.mp he))
  · rw [hentry]
    exact tornCrates_encodes (Or.inr rfl)
  · intro f hf
    rw [List.mem_singleton.mp hf, hentry]
    have hpieces : ∀ torn, torn <+: tornCrates.auditToJson soleEntry →
        torn ∈ (str "0 snap x").inits := by
      intro torn htorn
      have hjson : tornCrates.auditToJson soleEntry = str "0 snap x" := by decide +kernel
      rw [hjson] at htorn
      exact (List.mem_inits _ _).mpr htorn
    constructor
    · intro torn htorn
      have hcut : ∀ p ∈ (str "0 snap x").inits, p ≠ tornCrates.auditToJson soleEntry →
          parseLine tornCrates p = none := by decide +kernel
      exact hcut torn (hpieces torn htorn)
    · intro torn htorn
      have hglued : ∀ p ∈ (str "0 snap x").inits, p ≠ [] →
          parseLine tornCrates (p ++ tornCrates.auditToJson secondEntry) = none := by
        decide +kernel
      exact hglued torn (hpieces torn htorn)

end Audit

end Respawn
