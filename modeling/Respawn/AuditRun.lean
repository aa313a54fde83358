import Respawn.Audit
import Respawn.Writes

/-!
# Runs of the audit log

Any number of `record` calls on a log that was absent, with `tip` read in
between (`Recorded`).  The four readers of the log agree on what such a run
leaves: `verify` finds a valid chain, `tip` its length and last hash, and
`tip_is_prefix` accepts every tip seen on the way.
-/

namespace Respawn

open ByteStr FileTree StateLogic HashChain

variable (X : Crates) (st : Store)

namespace Audit

/-- The log was absent and then `record` made these entries; `seen` is what
`tip` returned meanwhile.  The rest of the machine may change in between. -/
inductive Recorded : Machine → List AuditEntry → List (Nat × Bytes) → Prop
  | start {m : Machine} (hdir : m.fs.get st.fabricDir = some .dir)
      (habsent : m.fs.get (auditPath st) = none) : Recorded m [] []
  | elsewhere {m m' : Machine} {es : List AuditEntry} {seen : List (Nat × Bytes)} {text : Bytes}
      (h : Recorded m es seen) (hm : LogIs st m.fs text) (hm' : LogIs st m'.fs text) :
      Recorded m' es seen
  | record {m m' : Machine} {es : List AuditEntry} {seen : List (Nat × Bytes)}
      {event detail : Bytes} (h : Recorded m es seen)
      (hrun : record X st event detail m = .ok () m') :
      Recorded m' (es ++ [nextEntry X st event detail m.fs m.clock]) seen
  | tip {m : Machine} {es : List AuditEntry} {seen : List (Nat × Bytes)} {t : Nat × Bytes}
      (h : Recorded m es seen) (htip : tip X st m.fs = .ok t) : Recorded m es (t :: seen)

variable {X st}

/-- A log that was recorded was grown. -/
theorem Recorded.grown {m : Machine} {es : List AuditEntry} {seen : List (Nat × Bytes)}
    (h : Recorded X st m es seen) : AuditGrown X st m es := by
  induction h with
  | start hdir habsent => exact .start ⟨hdir, Or.inl ⟨habsent, rfl⟩⟩
  | elsewhere _ hm hm' ih => exact .elsewhere ih hm hm'
  | record _ hrun ih => exact .record ih hrun
  | tip _ _ ih => exact ih

/-- Every tip seen is the length and last hash of a beginning of the chain. -/
theorem Recorded.seen_tips {m : Machine} {es : List AuditEntry} {seen : List (Nat × Bytes)}
    (h : Recorded X st m es seen) (hes : ∀ e ∈ es, Encodes X e) (hlen : es.length < 2 ^ 64) :
    ∀ t ∈ seen, ∃ front, front <+: es ∧ t = (front.length, lastHash (linking X) [] front) := by
  induction h with
  | start _ _ => simp
  | elsewhere _ _ _ ih => exact ih hes hlen
  | @record m m' es seen event detail h hrun ih =>
      intro t ht
      have hlen' : es.length < 2 ^ 64 := by
        rw [List.length_append, List.length_singleton] at hlen
        omega
      obtain ⟨front, hfront, heq⟩ := ih (fun e he => hes e (List.mem_append_left _ he)) hlen' t ht
      exact ⟨front, hfront.trans (List.prefix_append _ _), heq⟩
  | @tip m es seen t₀ h htip ih =>
      intro t ht
      rcases List.mem_cons.mp ht with rfl | hin
      · have htip' := AuditGrown.tip_eq X st h.grown hes
        have hlinked := AuditGrown.linked X st h.grown hes (by omega)
        rw [htip, following_linked X hlinked hlen] at htip'
        exact ⟨es, List.prefix_refl _, Except.ok.inj htip'⟩
      · exact ih hes hlen t hin

/-- `verify` goes through the lines of a chain. -/
theorem verifyLines_linked {i k : Nat} {prev : Bytes} {es : List AuditEntry}
    (hes : ∀ e ∈ es, Encodes X e) (hlinked : Linked (linking X) k prev es) :
    verifyLines X i k prev (es.map X.auditToJson) = .ok ⟨k + es.length, true, none⟩ := by
  induction es generalizing i k prev with
  | nil => rfl
  | cons e es ih =>
      have he := hes e (by simp)
      obtain ⟨⟨hseq, hprev, hhash⟩, hrest⟩ := hlinked
      have hprev' : e.prev = prev := hprev
      have hhash' : e.hash = entryHash X e.seq e.ts e.event e.detail prev := by
        rw [← hprev']
        exact hhash
      rw [List.map_cons, verifyLines, if_neg (by simp [he.utf8]), if_neg he.ink, he.decode]
      simp only
      have htail := ih (i := i + 1) (fun f hf => hes f (List.mem_cons_of_mem _ hf)) hrest
      have hcount : k + (e :: es).length = k + 1 + es.length := by
        rw [List.length_cons]
        omega
      rw [if_neg (by simp [show e.seq = k from hseq, hprev', hhash']), hcount]
      exact htail

/-- `verify` finds the first entry that is not linked. -/
theorem linked_of_verifyLines {i k : Nat} {prev : Bytes} {es : List AuditEntry} {r : VerifyReport}
    (hes : ∀ e ∈ es, Encodes X e)
    (h : verifyLines X i k prev (es.map X.auditToJson) = .ok r) (hvalid : r.valid = true) :
    Linked (linking X) k prev es := by
  induction es generalizing i k prev with
  | nil => trivial
  | cons e es ih =>
      have he := hes e (by simp)
      rw [List.map_cons, verifyLines, if_neg (by simp [he.utf8]), if_neg he.ink, he.decode] at h
      simp only at h
      by_cases hbad : e.seq ≠ k ∨ e.prev ≠ prev ∨
          e.hash ≠ entryHash X e.seq e.ts e.event e.detail prev
      · rw [if_pos hbad] at h
        cases h
        cases hvalid
      · rw [if_neg hbad] at h
        simp only [not_or, not_not] at hbad
        obtain ⟨hseq, hprev, hhash⟩ := hbad
        refine ⟨⟨hseq, hprev, ?_⟩, ih (fun f hf => hes f (List.mem_cons_of_mem _ hf)) h⟩
        rw [← hprev] at hhash
        exact hhash

/-- `verify` goes through the entries of the log. -/
theorem verify_of_logIs {fs : Fs} {es : List AuditEntry} (h : LogIs st fs (logText X es))
    (hes : ∀ e ∈ es, Encodes X e) :
    verify X st fs = verifyLines X 0 0 [] (es.map X.auditToJson) := by
  obtain ⟨hdir, htext⟩ := h
  have hfile := fileLines_logText X hes
  unfold verify
  rcases htext with ⟨hnone, hempty⟩ | ⟨d, hd, hbytes⟩
  · have hmissing : fs.exists (auditPath st) = false := by
      rw [Fs.exists, metadata_of_missing st hdir hnone]
      rfl
    rw [hempty] at hfile
    have hnil : es = [] := List.map_eq_nil_iff.mp hfile.symm
    rw [if_neg (by simp [hmissing]), hnil]
    rfl
  · have hexists : fs.exists (auditPath st) = true := by
      rw [Fs.exists, Fs.metadata_of_get hd (by simp)]
      rfl
    rw [if_pos hexists, Fs.read_of_get hd, hbytes]
    simp only [hfile]

/-- What `verify` reports on a recorded log. -/
theorem AuditGrown.verify_eq {m : Machine} {es : List AuditEntry} (h : AuditGrown X st m es)
    (hes : ∀ e ∈ es, Encodes X e) (hlen : es.length ≤ 2 ^ 64) :
    verify X st m.fs = .ok ⟨es.length, true, none⟩ := by
  have hlinked := AuditGrown.linked X st h hes hlen
  have hlines := verifyLines_linked (i := 0) hes hlinked
  rw [Nat.zero_add] at hlines
  rw [verify_of_logIs (AuditGrown.logIs X st h) hes, hlines]

/-- A tip seen earlier passes. -/
theorem AuditGrown.tipIsPrefix_front {m : Machine} {es front : List AuditEntry}
    (h : AuditGrown X st m es) (hes : ∀ e ∈ es, Encodes X e) (hlen : es.length ≤ 2 ^ 64)
    (hfront : front <+: es) :
    tipIsPrefix X st front.length (lastHash (linking X) [] front) m.fs = .ok () := by
  obtain ⟨back, rfl⟩ := hfront
  by_cases hzero : front.length = 0
  · unfold tipIsPrefix
    rw [if_pos hzero]
  · have hlinked := AuditGrown.linked X st h hes hlen
    have hlines : entryLines (logLines st m.fs) = (front ++ back).map X.auditToJson := by
      rw [logLines_of_logIs st (AuditGrown.logIs X st h), fileLines_logText X hes,
        entryLines_encoded X hes]
    rw [tipIsPrefix_eq_ok X st (Nat.pos_of_ne_zero hzero), hlines]
    refine ⟨front, ?_, hlinked.of_append, rfl, rfl, ?_⟩
    · rw [List.map_append, List.take_left' (by simp), List.map_map]
      apply List.map_congr_left
      intro e he
      have hcodec := hes e (List.mem_append_left _ he)
      simp [parseLine, hcodec.utf8, hcodec.decode, Except.toOption]
    · intro line hline
      obtain ⟨e, he, rfl⟩ := List.mem_map.mp (List.mem_of_getElem? hline)
      exact (hes e he).utf8

/-- Recording succeeds while the log is a file or missing. -/
theorem record_succeeds {event detail text : Bytes} {m : Machine} (h : LogIs st m.fs text) :
    ∃ m', record X st event detail m = .ok () m' := by
  obtain ⟨hdir, htext⟩ := h
  have hnames : ∀ n ∈ auditPath st, ValidName n := by
    intro n hn
    rcases List.mem_append.mp hn with hn | hn
    · exact m.fs.valid_of_get hdir hn
    · rw [List.mem_singleton.mp hn]
      decide
  obtain ⟨w, _, hline, _⟩ : ∃ w d, Store.appendLine (auditPath st)
      (X.auditToJson (nextEntry X st event detail m.fs m.clock)) m =
        .ok () { m with toWorld := w } ∧ w.fs.get (auditPath st) = some (.file d) ∧ _ :=
    Store.appendLine_ok hnames (by simp [auditPath])
      (by rw [auditPath_dropLast]; exact hdir) htext
  refine ⟨{ m with toWorld := w }, ?_⟩
  unfold record
  rw [bind_apply]
  simp only [io, createDirAll_of_dir hdir]
  exact hline

variable (X st)

/-- **The audit log is a valid append-only chain.**  After any run of `record`
calls `verify` reports a valid chain with one entry for each, `tip` its length
and last hash, every tip seen before is accepted by `tip_is_prefix`, and the
next call succeeds. -/
theorem recorded_chain (m : Machine) (es : List AuditEntry) (seen : List (Nat × Bytes))
    (h : Recorded X st m es seen) (hes : ∀ e ∈ es, Encodes X e) (hlen : es.length < 2 ^ 64) :
    verify X st m.fs = .ok ⟨es.length, true, none⟩ ∧
      tip X st m.fs = .ok (es.length, lastHash (linking X) [] es) ∧
      (∀ t ∈ seen, tipIsPrefix X st t.1 t.2 m.fs = .ok ()) ∧
      ∀ event detail, ∃ m', record X st event detail m = .ok () m' := by
  have hgrown := h.grown
  refine ⟨AuditGrown.verify_eq hgrown hes (by omega), ?_, ?_, ?_⟩
  · rw [AuditGrown.tip_eq X st hgrown hes,
      following_linked X (AuditGrown.linked X st hgrown hes (by omega)) hlen]
  · intro t ht
    obtain ⟨front, hfront, rfl⟩ := h.seen_tips hes hlen t ht
    exact AuditGrown.tipIsPrefix_front hgrown hes (by omega) hfront
  · intro event detail
    exact record_succeeds (AuditGrown.logIs X st hgrown)

/-- The log of two entries with the tips seen before, between and after them. -/
theorem logOfTwo_recorded : Recorded jsonLogCrates ⟨[str "w"]⟩ logOfTwo [snapEntry, purgeEntry]
    [(2, purgeEntry.hash), (1, snapEntry.hash), (0, [])] := by
  have hnew : Recorded jsonLogCrates ⟨[str "w"]⟩ newLog [] [(0, [])] :=
    Recorded.tip (.start (by decide +kernel) (by decide +kernel)) (by decide +kernel)
  have hone : Recorded jsonLogCrates ⟨[str "w"]⟩ logOfOne [snapEntry]
      [(1, snapEntry.hash), (0, [])] :=
    Recorded.tip (hnew.record (eq_ok_of_succeeded
      (r := logging (str "snap") (str "say \"hi\"") newLog) (by decide +kernel)))
      (by decide +kernel)
  exact Recorded.tip (hone.record (eq_ok_of_succeeded
    (r := logging (str "purge") (str "a\\b\nc") logOfOne) (by decide +kernel))) (by decide +kernel)

/-- Two events whose texts JSON escapes, and the tips seen on the way. -/
theorem recorded_chain_linked :
    purgeEntry.prev = snapEntry.hash ∧
      verify jsonLogCrates ⟨[str "w"]⟩ logOfTwo.fs = .ok ⟨2, true, none⟩ ∧
      tip jsonLogCrates ⟨[str "w"]⟩ logOfTwo.fs = .ok (2, purgeEntry.hash) ∧
      (∀ t ∈ [(2, purgeEntry.hash), (1, snapEntry.hash), (0, [])],
        tipIsPrefix jsonLogCrates ⟨[str "w"]⟩ t.1 t.2 logOfTwo.fs = .ok ()) ∧
      ∀ event detail, ∃ m', record jsonLogCrates ⟨[str "w"]⟩ event detail logOfTwo = .ok () m' := by
  obtain ⟨hverify, htip, hseen, hmore⟩ := recorded_chain jsonLogCrates ⟨[str "w"]⟩ logOfTwo
    [snapEntry, purgeEntry] _ logOfTwo_recorded logOfTwo_encodes (by decide)
  have hlast (a b : AuditEntry) : lastHash (linking jsonLogCrates) [] [a, b] = b.hash := rfl
  rw [hlast] at htip
  exact ⟨by decide +kernel, hverify, htip, hseen, hmore⟩

end Audit

end Respawn
