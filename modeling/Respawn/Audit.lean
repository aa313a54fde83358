import Mathlib.Data.List.TakeWhile
import Respawn.HashChain
import Respawn.Json
import Respawn.Snapshot

/-!
# Hash-chained audit log

`record` appends a JSON line to `.respawn/audit.jsonl` whose hash covers the
entry and the hash of the line before; `tip` is what an anchor notes down and
`tip_is_prefix` what it checks later.

The log that any run of `record` calls leaves is a chain in the sense of
`HashChain` (`AuditGrown`), and `tip_is_prefix` accepts exactly the logs whose
first lines are a chain with the noted last hash, provided the line after them
can be read at all.
-/

namespace Respawn

open ByteStr FileTree StateLogic HashChain

variable (X : Crates) (st : Store)

namespace Audit

/-- The hash of an entry's fields. -/
def entryHash (seq ts : Nat) (event detail prev : Bytes) : Bytes :=
  hexEncode (X.blake3 (X.tupleToJson (seq, ts, event, detail, prev))).val

def auditPath : Path := st.fabricDir ++ [str "audit.jsonl"]

/-- The number and previous hash of the next entry: a line that is no entry is
passed over, and reading stops at a line that is not UTF-8. -/
def resume (lines : List Bytes) : Nat × Bytes :=
  (lines.takeWhile validUtf8).foldl (fun next line =>
    match X.auditOfJson line with
    | .ok e => ((e.seq + 1) % 2 ^ 64, e.hash)
    | .error _ => next) (0, [])

/-- The lines of the log; a log that cannot be opened has none. -/
def logLines (fs : Fs) : List Bytes :=
  match fs.read (auditPath st) with
  | .ok s => fileLines s
  | .error _ => []

/-- The entry that `record` appends. -/
def nextEntry (event detail : Bytes) (fs : Fs) (clock : Int) : AuditEntry :=
  let (seq, prev) := resume X (logLines st fs)
  { seq := seq
    ts := unixSecs clock
    event := event
    detail := detail
    prev := prev
    hash := entryHash X seq (unixSecs clock) event detail prev }

/-- Append an event. -/
def record (event detail : Bytes) : Sys Unit := do
  io (createDirAll st.fabricDir)
  let m ← get
  let entry := nextEntry X st event detail m.fs m.clock
  let f ← io (openAppend (auditPath st))
  io (writeAll f (X.auditToJson entry))
  io (writeAll f [10])

/-- The loop of `tip`, at line `i`. -/
def tipLines (i entries : Nat) (tip : Bytes) : List Bytes → Except Error (Nat × Bytes)
  | [] => .ok (entries, tip)
  | line :: rest =>
      if validUtf8 line = false then .error (.io .invalidData)
      else if trim line = [] then tipLines (i + 1) entries tip rest
      else match X.auditOfJson line with
        | .error _ =>
            .error (.corrupt (str "audit line " ++ decimal (i + 1) ++ str " unparsable"))
        | .ok e => tipLines (i + 1) ((e.seq + 1) % 2 ^ 64) e.hash rest

/-- Current number of entries and last hash. -/
def tip (fs : Fs) : Except Error (Nat × Bytes) :=
  if fs.exists (auditPath st) then
    match fs.read (auditPath st) with
    | .error e => .error (.io e)
    | .ok s => tipLines X 0 0 [] (fileLines s)
  else .ok (0, [])

/-- What `verify` reports. -/
structure VerifyReport where
  entries : Nat
  valid : Bool
  firstBad : Option Nat
  deriving DecidableEq

/-- The loop of `verify`, at line `i`, with the entries counted so far and the
hash of the last one. -/
def verifyLines (i entries : Nat) (prev : Bytes) : List Bytes → Except Error VerifyReport
  | [] => .ok ⟨entries, true, none⟩
  | line :: rest =>
      if validUtf8 line = false then .error (.io .invalidData)
      else if trim line = [] then verifyLines (i + 1) entries prev rest
      else match X.auditOfJson line with
        | .error _ =>
            .error (.corrupt (str "audit line " ++ decimal (i + 1) ++ str " unparsable"))
        | .ok e =>
            if e.seq ≠ entries ∨ e.prev ≠ prev ∨
                e.hash ≠ entryHash X e.seq e.ts e.event e.detail prev then
              .ok ⟨entries, false, some e.seq⟩
            else verifyLines (i + 1) (entries + 1) e.hash rest

/-- Recompute the chain from the first line. -/
def verify (fs : Fs) : Except Error VerifyReport :=
  if fs.exists (auditPath st) then
    match fs.read (auditPath st) with
    | .error e => .error (.io e)
    | .ok s => verifyLines X 0 0 [] (fileLines s)
  else .ok ⟨0, true, none⟩

/-- The loop of `tip_is_prefix`: the number of entries verified and the last
hash. -/
def prefixLines (len seq : Nat) (prev : Bytes) : List Bytes → Except Error (Nat × Bytes)
  | [] => .ok (seq, prev)
  | line :: rest =>
      -- the line is read before the loop looks whether it has read enough
      if validUtf8 line = false then .error (.io .invalidData)
      else if trim line = [] then prefixLines len seq prev rest
      else if seq ≥ len then .ok (seq, prev)
      else match X.auditOfJson line with
        | .error _ =>
            .error (.corrupt (str "audit line " ++ decimal (seq + 1) ++ str " unparsable"))
        | .ok e =>
            if e.seq ≠ seq ∨ e.prev ≠ prev ∨
                e.hash ≠ entryHash X e.seq e.ts e.event e.detail prev then
              .error (.corrupt (str "audit chain broken inside anchored region at seq " ++
                decimal e.seq))
            else prefixLines len (seq + 1) e.hash rest

/-- Confirm that the first `len` entries of the live log still hash to
`expectedTip`. -/
def tipIsPrefix (len : Nat) (expectedTip : Bytes) (fs : Fs) : Except Error Unit :=
  if len = 0 then .ok ()
  else if fs.exists (auditPath st) then
    match fs.read (auditPath st) with
    | .error e => .error (.io e)
    | .ok s => match prefixLines X len 0 [] (fileLines s) with
      | .error e => .error e
      | .ok (seq, prev) =>
          if seq < len then
            .error (.corrupt (str "audit log truncated: anchor covers " ++ decimal len ++
              str " entries, only " ++ decimal seq ++ str " present"))
          else if prev ≠ expectedTip then
            .error (.corrupt (str "audit tip diverged from anchor — covered history was altered"))
          else .ok ()
  else .error (.corrupt (str "audit log missing since anchor"))

/-! ## The chain -/

/-- How audit entries are linked. -/
def linking : Linking AuditEntry Bytes where
  seq := AuditEntry.seq
  prev := AuditEntry.prev
  hash := AuditEntry.hash
  digest e := entryHash X e.seq e.ts e.event e.detail e.prev

/-- A line that the readers of the log skip. -/
def isBlank (line : Bytes) : Bool := validUtf8 line && trim line = []

/-- The lines of the log that are not blank. -/
def entryLines (lines : List Bytes) : List Bytes := lines.filter fun l => !isBlank l

/-- The entry on a line. -/
def parseLine (line : Bytes) : Option AuditEntry :=
  if validUtf8 line then (X.auditOfJson line).toOption else none

theorem entryLines_cons_blank {line : Bytes} {rest : List Bytes} (hblank : isBlank line = true) :
    entryLines (line :: rest) = entryLines rest :=
  List.filter_cons_of_neg (by simp [hblank])

theorem entryLines_cons_entry {line : Bytes} {rest : List Bytes} (hblank : isBlank line = false) :
    entryLines (line :: rest) = line :: entryLines rest :=
  List.filter_cons_of_pos (by simp [hblank])

/-- The next entry lines, as many as are wanted up to number `len`, continue the
chain from number `seq` and hash `prev` to number `k` and hash `h`, and the line
after them is readable. -/
def Continues (len seq : Nat) (prev : Bytes) (lines : List Bytes) (k : Nat) (h : Bytes) : Prop :=
  ∃ es, (lines.take (len - seq)).map (parseLine X) = es.map some ∧
    Linked (linking X) seq prev es ∧ k = seq + es.length ∧ h = lastHash (linking X) prev es ∧
      ∀ line, lines[len - seq]? = some line → validUtf8 line = true

section Continues

variable {X} {len seq k : Nat} {prev h line : Bytes} {lines : List Bytes}

/-- Where no line is wanted any more, the chain is where it was. -/
theorem continues_stop (hnone : lines.take (len - seq) = [])
    (hnext : ∀ line, lines[len - seq]? = some line → validUtf8 line = true) :
    Continues X len seq prev lines k h ↔ seq = k ∧ prev = h := by
  constructor
  · intro hes
    obtain ⟨es, hmap, _, hk, hh, _⟩ := hes
    rw [hnone] at hmap
    have hnil : es = [] := List.map_eq_nil_iff.mp hmap.symm
    subst hnil
    exact ⟨hk.symm, hh.symm⟩
  · rintro ⟨rfl, rfl⟩
    exact ⟨[], by simp [hnone], trivial, rfl, rfl, hnext⟩

/-- A line that is wanted and holds no entry ends the chain. -/
theorem not_continues (hlt : seq < len) (hparse : parseLine X line = none) :
    ¬ Continues X len seq prev (line :: lines) k h := by
  intro hes
  obtain ⟨es, hmap, _⟩ := hes
  have hd : len - seq = (len - (seq + 1)) + 1 := by omega
  rw [hd, List.take_succ_cons, List.map_cons, hparse] at hmap
  cases es <;> simp at hmap

/-- A line that is wanted continues the chain by the entry it holds. -/
theorem continues_cons {e : AuditEntry} (hlt : seq < len) (hparse : parseLine X line = some e) :
    Continues X len seq prev (line :: lines) k h ↔
      (e.seq = seq ∧ e.prev = prev ∧ e.hash = entryHash X e.seq e.ts e.event e.detail prev) ∧
        Continues X len (seq + 1) e.hash lines k h := by
  have hd : len - seq = (len - (seq + 1)) + 1 := by omega
  unfold Continues
  rw [hd, List.take_succ_cons, List.map_cons, hparse, List.getElem?_cons_succ]
  constructor
  · intro hes
    obtain ⟨es, hmap, hlinked, hk, hh, hnext⟩ := hes
    cases es with
    | nil => simp at hmap
    | cons f es =>
        obtain ⟨hf, hrest⟩ := List.cons.inj hmap
        obtain rfl := Option.some.inj hf
        obtain ⟨⟨hseq, hprev, hhash⟩, hrun⟩ := hlinked
        have hprev' : e.prev = prev := hprev
        refine ⟨⟨hseq, hprev, hprev' ▸ hhash⟩, es, hrest, hrun, ?_, hh, hnext⟩
        rw [hk, List.length_cons]
        omega
  · rintro ⟨⟨hseq, hprev, hhash⟩, es, hmap, hlinked, hk, hh, hnext⟩
    rw [← hprev] at hhash
    refine ⟨e :: es, by rw [hmap]; rfl, ⟨⟨hseq, hprev, hhash⟩, hlinked⟩, ?_, hh, hnext⟩
    rw [hk, List.length_cons]
    omega

end Continues

/-- **What the verification loop accepts.**  It succeeds when the next entry
lines, as many as it still wants, are entries that continue the chain, and the
line after them is readable. -/
theorem prefixLines_eq_ok {len seq k : Nat} {prev h : Bytes} {lines : List Bytes}
    (hle : seq ≤ len) :
    prefixLines X len seq prev lines = .ok (k, h) ↔
      Continues X len seq prev (entryLines lines) k h := by
  induction lines generalizing seq prev with
  | nil =>
      rw [show entryLines [] = [] from rfl, continues_stop (by simp) (by simp)]
      simp only [prefixLines, Except.ok.injEq, Prod.mk.injEq]
  | cons line rest ih =>
      unfold prefixLines
      by_cases hutf : validUtf8 line = false
      · -- an unreadable line stops the loop, wherever it stands
        rw [if_pos hutf, entryLines_cons_entry (by simp [isBlank, hutf])]
        refine iff_of_false (by simp) ?_
        by_cases hlt : seq < len
        · exact not_continues hlt (by simp [parseLine, hutf])
        · intro hes
          obtain ⟨_, _, _, _, _, hnext⟩ := hes
          have hd : len - seq = 0 := by omega
          simpa [hd, hutf] using hnext line
      · rw [if_neg hutf]
        have hvalid : validUtf8 line = true := by simpa using hutf
        by_cases htrim : trim line = []
        · rw [if_pos htrim, entryLines_cons_blank (by simp [isBlank, hvalid, htrim])]
          exact ih hle
        · rw [if_neg htrim, entryLines_cons_entry (by simp [isBlank, htrim])]
          by_cases hfull : seq ≥ len
          · have hd : len - seq = 0 := by omega
            rw [if_pos hfull, continues_stop (by simp [hd]) (by simp [hd, hvalid])]
            simp only [Except.ok.injEq, Prod.mk.injEq]
          · have hlt : seq < len := by omega
            rw [if_neg hfull]
            cases hjson : X.auditOfJson line with
            | error m =>
                refine iff_of_false (by simp) ?_
                exact not_continues hlt (by simp [parseLine, hvalid, hjson, Except.toOption])
            | ok e =>
                rw [continues_cons hlt
                  (show parseLine X line = some e by
                    simp [parseLine, hvalid, hjson, Except.toOption])]
                simp only
                by_cases hbad : e.seq ≠ seq ∨ e.prev ≠ prev ∨
                    e.hash ≠ entryHash X e.seq e.ts e.event e.detail prev
                · rw [if_pos hbad]
                  refine iff_of_false (by simp) ?_
                  rintro ⟨⟨hseq, hprev, hhash⟩, _⟩
                  rcases hbad with hbad | hbad | hbad
                  · exact hbad hseq
                  · exact hbad hprev
                  · exact hbad hhash
                · rw [if_neg hbad, ih (by omega)]
                  simp only [ne_eq, not_or, not_not] at hbad
                  exact (and_iff_right hbad).symm

theorem logLines_of_read_error {fs : Fs} {e : Errno} (h : fs.read (auditPath st) = .error e) :
    logLines st fs = [] := by
  simp [logLines, h]

/-- What does not exist cannot be read. -/
theorem read_error_of_not_exists {fs : Fs} {p : Path} (h : fs.exists p = false) :
    ∃ e, fs.read p = .error e := by
  unfold Fs.exists at h
  unfold Fs.read
  cases hm : fs.metadata p with
  | ok x => simp [hm, Except.isOk, Except.toBool] at h
  | error e => exact ⟨e, rfl⟩

/-- The first `n` entry lines of the log are entries that form a chain with the
last hash `t`, and the line after them is readable. -/
theorem tipIsPrefix_eq_ok {n : Nat} {t : Bytes} {fs : Fs} (hn : 0 < n) :
    tipIsPrefix X st n t fs = .ok () ↔
      ∃ es, ((entryLines (logLines st fs)).take n).map (parseLine X) = es.map some ∧
        Linked (linking X) 0 [] es ∧ es.length = n ∧ lastHash (linking X) [] es = t ∧
        ∀ line, (entryLines (logLines st fs))[n]? = some line → validUtf8 line = true := by
  have hempty : logLines st fs = [] → ¬ ∃ es : List AuditEntry,
      ((entryLines (logLines st fs)).take n).map (parseLine X) = es.map some ∧
        Linked (linking X) 0 [] es ∧ es.length = n ∧ lastHash (linking X) [] es = t ∧
        ∀ line, (entryLines (logLines st fs))[n]? = some line → validUtf8 line = true := by
    intro hnil h
    obtain ⟨es, hmap, _, hlen, _⟩ := h
    rw [hnil] at hmap
    have hes : es = [] := by simpa [entryLines] using hmap
    rw [hes] at hlen
    simp at hlen
    omega
  unfold tipIsPrefix
  rw [if_neg (by omega)]
  by_cases hexists : fs.exists (auditPath st) = true
  · rw [if_pos hexists]
    cases hread : fs.read (auditPath st) with
    | error e =>
        refine ⟨fun h => (nomatch h), fun h => absurd h ?_⟩
        exact hempty (logLines_of_read_error st hread)
    | ok text =>
        have hlines : logLines st fs = fileLines text := by simp [logLines, hread]
        simp only [hlines]
        have hspec : ∀ k h, prefixLines X n 0 [] (fileLines text) = .ok (k, h) ↔ _ :=
          fun k h => prefixLines_eq_ok X (Nat.zero_le n)
        unfold Continues at hspec
        cases hrun : prefixLines X n 0 [] (fileLines text) with
        | error e =>
            refine ⟨fun h => (nomatch h), ?_⟩
            intro h
            obtain ⟨es, hmap, hlinked, _, _, hnext⟩ := h
            have hok := (hspec _ _).mpr ⟨es, hmap, hlinked, rfl, rfl, hnext⟩
            rw [hrun] at hok
            cases hok
        | ok r =>
            obtain ⟨k, h⟩ := r
            obtain ⟨es, hmap, hlinked, hk, hh, hnext⟩ := (hspec k h).mp hrun
            simp only [Nat.sub_zero, Nat.zero_add] at hmap hk hnext
            by_cases hshort : k < n
            · simp only [hshort, if_true]
              refine ⟨fun h => (nomatch h), ?_⟩
              intro h
              obtain ⟨es', hmap', _, hlen', _⟩ := h
              have heq : es'.map some = es.map some := hmap'.symm.trans hmap
              have hlens := congrArg List.length heq
              simp only [List.length_map] at hlens
              omega
            · have hbound : es.length ≤ n := by
                have hlens := congrArg List.length hmap
                simp only [List.length_map, List.length_take] at hlens
                omega
              simp only [hshort, if_false]
              by_cases htip : h = t
              · simp only [htip, ne_eq, not_true_eq_false, if_false, true_iff]
                exact ⟨es, hmap, hlinked, by omega, by rw [← hh, htip], hnext⟩
              · simp only [htip, ne_eq, not_false_eq_true, if_true]
                refine ⟨fun h => (nomatch h), ?_⟩
                intro h'
                obtain ⟨es', hmap', _, _, hlast', _⟩ := h'
                have heq : es'.map some = es.map some := hmap'.symm.trans hmap
                have hes : es' = es := List.map_injective_iff.mpr (Option.some_injective _) heq
                rw [hes, ← hh] at hlast'
                exact absurd hlast' htip
  · rw [if_neg hexists]
    refine ⟨fun h => (nomatch h), fun h => absurd h ?_⟩
    obtain ⟨e, he⟩ := read_error_of_not_exists (by simpa using hexists)
    exact hempty (logLines_of_read_error st he)

/-! ## The log that `record` grows -/

/-- What the JSON encoder promises of an entry: one line of text that reads back. -/
structure Encodes (e : AuditEntry) : Prop where
  decode : X.auditOfJson (X.auditToJson e) = .ok e
  utf8 : validUtf8 (X.auditToJson e) = true
  oneLine : 10 ∉ X.auditToJson e
  noCr : (X.auditToJson e).getLast? ≠ some 13
  ink : trim (X.auditToJson e) ≠ []

/-- The text of a log with these entries. -/
def logText (es : List AuditEntry) : Bytes := es.flatMap fun e => X.auditToJson e ++ [10]

/-- The fabric is a directory and its log, if any, is a file with this text. -/
def LogIs (fs : Fs) (text : Bytes) : Prop :=
  fs.get st.fabricDir = some .dir ∧ fs.HasText (auditPath st) text

/-- A fabric whose log was made by `record` alone, with the entries it wrote:
it starts without a log, anything else may happen to the machine in between. -/
inductive AuditGrown : Machine → List AuditEntry → Prop
  | start {m : Machine} (h : LogIs st m.fs []) : AuditGrown m []
  | elsewhere {m m' : Machine} {es : List AuditEntry} {text : Bytes} (h : AuditGrown m es)
      (hm : LogIs st m.fs text) (hm' : LogIs st m'.fs text) : AuditGrown m' es
  | record {m m' : Machine} {es : List AuditEntry} {event detail : Bytes} (h : AuditGrown m es)
      (hrun : record X st event detail m = .ok () m') :
      AuditGrown m' (es ++ [nextEntry X st event detail m.fs m.clock])

theorem auditPath_dropLast : (auditPath st).dropLast = st.fabricDir := by
  simp [auditPath]

/-- A log that is missing from a fabric is not found. -/
theorem metadata_of_missing {fs : Fs} (hdir : fs.get st.fabricDir = some .dir)
    (hnone : fs.get (auditPath st) = none) : fs.metadata (auditPath st) = .error .notFound := by
  have hnames : ∀ n ∈ auditPath st, ValidName n := by
    intro n hn
    rcases List.mem_append.mp hn with hn | hn
    · exact fs.valid_of_get hdir hn
    · rw [List.mem_singleton.mp hn]; decide
  have hres : fs.resolve true (auditPath st) = .ok (auditPath st) :=
    Fs.resolve_of_parent hnames (by simp [auditPath]) (by rw [auditPath_dropLast]; exact hdir)
      (by simp [hnone])
  unfold Fs.metadata
  simp only [hres, hnone]

/-- The lines of a log with this text are the lines of the text. -/
theorem logLines_of_logIs {fs : Fs} {text : Bytes} (h : LogIs st fs text) :
    logLines st fs = fileLines text := by
  obtain ⟨hdir, htext⟩ := h
  rcases htext with ⟨hnone, hempty⟩ | ⟨d, hd, hbytes⟩
  · rw [hempty]
    unfold logLines Fs.read
    rw [metadata_of_missing st hdir hnone]
    rfl
  · unfold logLines
    rw [Fs.read_of_get hd, hbytes]

/-- **One `record`.**  The log grows by the line of the new entry. -/
theorem record_logIs {event detail text : Bytes} {m m' : Machine} (h : LogIs st m.fs text)
    (hrun : record X st event detail m = .ok () m') :
    LogIs st m'.fs (text ++
      (X.auditToJson (nextEntry X st event detail m.fs m.clock) ++ [10])) := by
  obtain ⟨hdir, htext⟩ := h
  have hnames : ∀ n ∈ auditPath st, ValidName n := by
    intro n hn
    rcases List.mem_append.mp hn with hn | hn
    · exact m.fs.valid_of_get hdir hn
    · rw [List.mem_singleton.mp hn]; decide
  have hne : st.fabricDir ≠ auditPath st := by
    intro heq
    have hlen := congrArg List.length heq
    simp [auditPath] at hlen
  obtain ⟨w₁, d₁, hopen, hget₁, hbytes₁, hframe₁, _⟩ := openAppend_of_dir hnames
    (by simp [auditPath]) (by rw [auditPath_dropLast]; exact hdir) htext
  obtain ⟨w₂, d₂, hwrite, hget₂, hbytes₂, hframe₂, _⟩ := writeAll_of_file hget₁
    (X.auditToJson (nextEntry X st event detail m.fs m.clock))
  obtain ⟨w₃, d₃, hend, hget₃, hbytes₃, hframe₃, _⟩ := writeAll_of_file hget₂ [10]
  have hm' : m' = { m with toWorld := w₃ } := by
    unfold record at hrun
    obtain ⟨_, m₀, h₀, hrun⟩ := bind_eq_ok.mp hrun
    obtain ⟨w₀, hw₀, rfl⟩ := io_eq_ok.mp h₀
    rw [createDirAll_of_dir hdir] at hw₀
    cases hw₀
    obtain ⟨m₁, _, hm₁, hrun⟩ := bind_eq_ok.mp hrun
    cases hm₁
    obtain ⟨f, _, hf, hrun⟩ := bind_eq_ok.mp hrun
    obtain ⟨w, hw, rfl⟩ := io_eq_ok.mp hf
    rw [hopen] at hw
    cases hw
    obtain ⟨_, _, hg, hrun⟩ := bind_eq_ok.mp hrun
    obtain ⟨w, hw, rfl⟩ := io_eq_ok.mp hg
    rw [hwrite] at hw
    cases hw
    obtain ⟨w, hw, rfl⟩ := io_eq_ok.mp hrun
    rw [hend] at hw
    cases hw
    rfl
  subst hm'
  refine ⟨?_, Or.inr ⟨d₃, hget₃, ?_⟩⟩
  · rw [hframe₃ _ hne, hframe₂ _ hne, hframe₁ _ hne]
    exact hdir
  · rw [hbytes₃, hbytes₂, hbytes₁, List.append_assoc]

/-- The lines of a log are the texts of its entries. -/
theorem fileLines_logText {es : List AuditEntry} (hes : ∀ e ∈ es, Encodes X e) :
    fileLines (logText X es) = es.map X.auditToJson := by
  induction es with
  | nil => rfl
  | cons e es ih =>
      have he := hes e (by simp)
      have htext : logText X (e :: es) = X.auditToJson e ++ 10 :: logText X es := by
        simp [logText]
      have hcr : stripCr (X.auditToJson e) = X.auditToJson e := if_neg he.noCr
      rw [htext, fileLines_append he.oneLine, hcr,
        ih fun f hf => hes f (List.mem_cons_of_mem _ hf), List.map_cons]

/-- None of them is blank. -/
theorem entryLines_encoded {es : List AuditEntry} (hes : ∀ e ∈ es, Encodes X e) :
    entryLines (es.map X.auditToJson) = es.map X.auditToJson := by
  apply List.filter_eq_self.mpr
  intro line hline
  obtain ⟨e, he, rfl⟩ := List.mem_map.mp hline
  simp [isBlank, (hes e he).ink]

/-- The number and hash that follow a list of entries. -/
def following (next : Nat × Bytes) (es : List AuditEntry) : Nat × Bytes :=
  es.foldl (fun _ e => ((e.seq + 1) % 2 ^ 64, e.hash)) next

/-- A log resumes after its last entry. -/
theorem resume_encoded {es : List AuditEntry} (hes : ∀ e ∈ es, Encodes X e) :
    resume X (es.map X.auditToJson) = following (0, []) es := by
  have hvalid : (es.map X.auditToJson).takeWhile validUtf8 = es.map X.auditToJson := by
    apply List.takeWhile_eq_self_iff.mpr
    intro line hline
    obtain ⟨e, he, rfl⟩ := List.mem_map.mp hline
    exact (hes e he).utf8
  unfold resume following
  rw [hvalid, List.foldl_map]
  apply List.foldl_ext
  intro next e he
  rw [(hes e he).decode]

/-- The tip of a log is that of its last entry. -/
theorem tipLines_encoded {i n : Nat} {t : Bytes} {es : List AuditEntry}
    (hes : ∀ e ∈ es, Encodes X e) :
    tipLines X i n t (es.map X.auditToJson) = .ok (following (n, t) es) := by
  induction es generalizing i n t with
  | nil => rfl
  | cons e es ih =>
      have he := hes e (by simp)
      rw [List.map_cons, tipLines, if_neg (by simp [he.utf8]), if_neg he.ink, he.decode]
      exact ih fun f hf => hes f (List.mem_cons_of_mem _ hf)

/-- While the numbers fit in 64 bits, a chain is followed by its length and its
last hash. -/
theorem following_linked {es : List AuditEntry} (h : Linked (linking X) 0 [] es)
    (hlen : es.length < 2 ^ 64) :
    following (0, []) es = (es.length, lastHash (linking X) [] es) := by
  rcases List.eq_nil_or_concat es with hnil | ⟨init, e, he⟩
  · rw [hnil]; rfl
  · rw [List.concat_eq_append] at he
    subst he
    obtain ⟨_, hseq, _, _⟩ := linked_concat.mp h
    have hseq' : e.seq = init.length := by simpa [linking] using hseq
    have hlen' : (init ++ [e]).length = init.length + 1 := by simp
    rw [lastHash_concat]
    simp only [following, List.foldl_append, List.foldl_cons, List.foldl_nil, hseq', hlen']
    rw [hlen'] at hlen
    rw [Nat.mod_eq_of_lt hlen]
    rfl

/-- A log has one text. -/
theorem LogIs.text_eq {fs : Fs} {text text' : Bytes} (h : LogIs st fs text)
    (h' : LogIs st fs text') : text = text' := by
  obtain ⟨_, ha⟩ := h
  obtain ⟨_, hb⟩ := h'
  rcases ha with ⟨hna, hea⟩ | ⟨d, hd, hbytes⟩
  · rcases hb with ⟨_, heb⟩ | ⟨d', hd', _⟩
    · rw [hea, heb]
    · rw [hna] at hd'
      cases hd'
  · rcases hb with ⟨hnb, _⟩ | ⟨d', hd', hbytes'⟩
    · rw [hnb] at hd
      cases hd
    · rw [hd] at hd'
      cases hd'
      rw [← hbytes, hbytes']

/-- A log that was grown has the text of its entries. -/
theorem AuditGrown.logIs {m : Machine} {es : List AuditEntry} (h : AuditGrown X st m es) :
    LogIs st m.fs (logText X es) := by
  induction h with
  | start h => exact h
  | elsewhere h hm hm' ih =>
      rw [LogIs.text_eq st ih hm]
      exact hm'
  | @record m m' es event detail h hrun ih =>
      have hnew := record_logIs X st ih hrun
      simpa [logText] using hnew

/-- **A recorded log is a chain**, as long as the numbers fit in 64 bits. -/
theorem AuditGrown.linked {m : Machine} {es : List AuditEntry} (h : AuditGrown X st m es)
    (hes : ∀ e ∈ es, Encodes X e) (hlen : es.length ≤ 2 ^ 64) :
    Linked (linking X) 0 [] es := by
  induction h with
  | start h => trivial
  | elsewhere h hm hm' ih => exact ih hes hlen
  | @record m m' es event detail h hrun ih =>
      have hlen' : es.length < 2 ^ 64 := by
        rw [List.length_append, List.length_singleton] at hlen
        omega
      have hold : ∀ e ∈ es, Encodes X e := fun e he => hes e (List.mem_append_left _ he)
      have hlinked := ih hold (by omega)
      have hresume : resume X (logLines st m.fs) =
          (es.length, lastHash (linking X) [] es) := by
        rw [logLines_of_logIs st (AuditGrown.logIs X st h), fileLines_logText X hold,
          resume_encoded X hold, following_linked X hlinked hlen']
      apply linked_concat.mpr
      refine ⟨hlinked, ?_, ?_, ?_⟩
      · simp [linking, nextEntry, hresume]
      · simp [linking, nextEntry, hresume]
      · simp [linking, nextEntry]

/-- What `tip` returns on a recorded log. -/
theorem AuditGrown.tip_eq {m : Machine} {es : List AuditEntry} (h : AuditGrown X st m es)
    (hes : ∀ e ∈ es, Encodes X e) : tip X st m.fs = .ok (following (0, []) es) := by
  have hlog := AuditGrown.logIs X st h
  have hlines := logLines_of_logIs st hlog
  rw [fileLines_logText X hes] at hlines
  unfold tip
  by_cases hexists : m.fs.exists (auditPath st) = true
  · rw [if_pos hexists]
    cases hread : m.fs.read (auditPath st) with
    | ok text =>
        have htext : fileLines text = es.map X.auditToJson := by
          rw [← hlines]
          simp [logLines, hread]
        simp only [htext, tipLines_encoded X hes]
    | error e =>
        -- a log that exists is a file
        obtain ⟨hdir, htext⟩ := hlog
        rcases htext with ⟨hnone, _⟩ | ⟨d, hd, _⟩
        · rw [Fs.exists, metadata_of_missing st hdir hnone] at hexists
          cases hexists
        · rw [Fs.read_of_get hd] at hread
          cases hread
  · rw [if_neg hexists]
    obtain ⟨e, he⟩ := read_error_of_not_exists (by simpa using hexists)
    rw [logLines_of_read_error st he] at hlines
    have hnil : es = [] := List.map_eq_nil_iff.mp hlines.symm
    rw [hnil]
    rfl

/-! ## What an anchor pins -/

/-- The first entry lines of the log, as many as there are entries in `es`, are
exactly these entries. -/
def Pinned (es : List AuditEntry) (fs : Fs) : Prop :=
  ((entryLines (logLines st fs)).take es.length).map (parseLine X) = es.map some

/-- The entry line after the first `n` is there but is not UTF-8. -/
def UnreadableAt (n : Nat) (fs : Fs) : Prop :=
  ∃ line, (entryLines (logLines st fs))[n]? = some line ∧ validUtf8 line = false

/-- The fields an entry's hash covers. -/
def body (e : AuditEntry) : Nat × Nat × Bytes × Bytes × Bytes :=
  (e.seq, e.ts, e.event, e.detail, e.prev)

/-- The bodies of some entries and of those on the lines of a log. -/
def bodies (es : List AuditEntry) (fs : Fs) : Set (Nat × Nat × Bytes × Bytes × Bytes) :=
  {b | ∃ e, (e ∈ es ∨ ∃ line ∈ entryLines (logLines st fs), parseLine X line = some e) ∧
    b = body e}

/-- Where the JSON tuple encoding and the hash are injective on the entries
concerned, an entry's hash determines the entry. -/
theorem binds_of_injOn {S : Set AuditEntry}
    (htuple : Set.InjOn X.tupleToJson (body '' S))
    (hhash : Set.InjOn X.blake3 (X.tupleToJson '' (body '' S))) : Binds (linking X) S := by
  intro e he f hf hhe hhf heq
  have hdigest : hexEncode (X.blake3 (X.tupleToJson (body e))).val =
      hexEncode (X.blake3 (X.tupleToJson (body f))).val := hhe.symm.trans (heq.trans hhf)
  have hbody : body e = body f := by
    apply htuple (Set.mem_image_of_mem _ he) (Set.mem_image_of_mem _ hf)
    apply hhash (Set.mem_image_of_mem _ (Set.mem_image_of_mem _ he))
      (Set.mem_image_of_mem _ (Set.mem_image_of_mem _ hf))
    exact Subtype.ext (hexEncode_injective hdigest)
  have hhash' : e.hash = f.hash := heq
  cases e
  cases f
  simp_all [body]

/-- **What `tip_is_prefix` decides.**  Against the tip of a recorded log it
accepts a later log exactly when the recorded entries stand at its start and
the entry line after them can be read. -/
theorem tipIsPrefix_recorded {m : Machine} {es : List AuditEntry} {t : Bytes} {fs : Fs}
    (hgrown : AuditGrown X st m es) (hes : ∀ e ∈ es, Encodes X e) (hne : es ≠ [])
    (htip : tip X st m.fs = .ok (es.length, t))
    (htuple : Set.InjOn X.tupleToJson (bodies X st es fs))
    (hhash : Set.InjOn X.blake3 (X.tupleToJson '' bodies X st es fs)) :
    tipIsPrefix X st es.length t fs = .ok () ↔
      Pinned X st es fs ∧ ¬ UnreadableAt st es.length fs := by
  have htip' := AuditGrown.tip_eq X st hgrown hes
  rw [htip] at htip'
  have hpair : following (0, []) es = (es.length, t) := (Except.ok.inj htip').symm
  have hlt : es.length < 2 ^ 64 := by
    rcases List.eq_nil_or_concat es with hnil | ⟨init, e, he⟩
    · exact absurd hnil hne
    · have hfst := congrArg Prod.fst hpair
      rw [he, List.concat_eq_append] at hfst ⊢
      simp only [following, List.foldl_append, List.foldl_cons, List.foldl_nil] at hfst
      rw [← hfst]
      exact Nat.mod_lt _ (by decide)
  have hlinked := AuditGrown.linked X st hgrown hes (by omega)
  have hlast : lastHash (linking X) [] es = t := by
    have hsnd := congrArg Prod.snd hpair
    rw [following_linked X hlinked hlt] at hsnd
    exact hsnd
  have hpos : 0 < es.length := List.length_pos_of_ne_nil hne
  rw [tipIsPrefix_eq_ok X st hpos]
  have hread : (∀ line, (entryLines (logLines st fs))[es.length]? = some line →
      validUtf8 line = true) ↔ ¬ UnreadableAt st es.length fs := by
    unfold UnreadableAt
    simp only [not_exists, not_and, Bool.not_eq_false]
  constructor
  · intro h
    obtain ⟨fes, hmap, hlinked', hlen, hlast', hnext⟩ := h
    -- the last hash fixes the entries, from the last one backwards
    let S : Set AuditEntry :=
      {e | e ∈ es ∨ ∃ line ∈ entryLines (logLines st fs), parseLine X line = some e}
    have himage : body '' S = bodies X st es fs := by
      ext b
      constructor
      · intro hb
        obtain ⟨e, he, rfl⟩ := hb
        exact ⟨e, he, rfl⟩
      · intro hb
        obtain ⟨e, he, rfl⟩ := hb
        exact ⟨e, he, rfl⟩
    have hparsed : ∀ f ∈ fes, f ∈ S := by
      intro f hf
      have hmem : some f ∈ fes.map some := List.mem_map.mpr ⟨f, hf, rfl⟩
      rw [← hmap] at hmem
      obtain ⟨line, hline, hf'⟩ := List.mem_map.mp hmem
      exact Or.inr ⟨line, List.mem_of_mem_take hline, hf'⟩
    have hsame : es = fes := by
      apply hlinked.unique (S := S) (binds_of_injOn X _ _) hlinked' hlen.symm
        (fun e he => Or.inl he) hparsed (hlast.trans hlast'.symm)
      · rw [himage]; exact htuple
      · rw [himage]; exact hhash
    exact ⟨by rw [Pinned, hmap, hsame], hread.mp hnext⟩
  · intro h
    obtain ⟨hpinned, hnext⟩ := h
    exact ⟨es, hpinned, hlinked, rfl, hlast, hread.mpr hnext⟩

/-- **When an anchor pins its audit prefix.**  `tip_is_prefix` accepts exactly
the logs that start with the anchored entries, unless such a log goes on with a
line that is not UTF-8. -/
theorem tipIsPrefix_pins_iff {m : Machine} {es : List AuditEntry} {t : Bytes} {fs : Fs}
    (hgrown : AuditGrown X st m es) (hes : ∀ e ∈ es, Encodes X e) (hne : es ≠ [])
    (htip : tip X st m.fs = .ok (es.length, t))
    (htuple : Set.InjOn X.tupleToJson (bodies X st es fs))
    (hhash : Set.InjOn X.blake3 (X.tupleToJson '' bodies X st es fs)) :
    (tipIsPrefix X st es.length t fs = .ok () ↔ Pinned X st es fs) ↔
      ¬ (Pinned X st es fs ∧ UnreadableAt st es.length fs) := by
  rw [tipIsPrefix_recorded X st hgrown hes hne htip htuple hhash]
  by_cases hp : Pinned X st es fs
  · by_cases hu : UnreadableAt st es.length fs
    · simp [hp, hu]
    · simp [hp, hu]
  · simp [hp]

/-- The entry `record` makes of `snap x` on a new fabric at time zero. -/
def soleEntry : AuditEntry where
  seq := 0
  ts := 0
  event := str "snap"
  detail := str "x"
  prev := []
  hash := entryHash (smallCrates [] [] []) 0 0 (str "snap") (str "x") []

/-- Crates whose JSON form of that entry is `0 snap x`. -/
def soleCrates : Crates := smallCrates [] [(str "0 snap x", soleEntry)] []

/-- A fabric with this text in its log. -/
def logFabric (text : Bytes) : Fs :=
  Fs.build (Store.fabricNodes ⟨[str "w"]⟩ [] ++
    [(auditPath ⟨[str "w"]⟩, Store.plainFile text)])

/-- The machine after `snap x` was recorded on a new fabric. -/
def soleMachine : Machine :=
  finalState (record soleCrates ⟨[str "w"]⟩ (str "snap") (str "x")
    (Machine.start (Fs.build (Store.fabricNodes ⟨[str "w"]⟩ []))))

/-- A log with one entry was grown. -/
theorem soleMachine_grown : AuditGrown soleCrates ⟨[str "w"]⟩ soleMachine [soleEntry] := by
  have hentry : nextEntry soleCrates ⟨[str "w"]⟩ (str "snap") (str "x")
      (Machine.start (Fs.build (Store.fabricNodes ⟨[str "w"]⟩ []))).fs
      (Machine.start (Fs.build (Store.fabricNodes ⟨[str "w"]⟩ []))).clock = soleEntry := by
    decide +kernel
  have hstart : LogIs ⟨[str "w"]⟩
      (Machine.start (Fs.build (Store.fabricNodes ⟨[str "w"]⟩ []))).fs [] :=
    ⟨by decide +kernel, Or.inl ⟨by decide +kernel, rfl⟩⟩
  have hgrown := AuditGrown.record (X := soleCrates) (AuditGrown.start hstart)
    (eq_ok_of_succeeded (r := record soleCrates ⟨[str "w"]⟩ (str "snap") (str "x")
      (Machine.start (Fs.build (Store.fabricNodes ⟨[str "w"]⟩ [])))) (by decide +kernel))
  rw [hentry] at hgrown
  exact hgrown

/-- A log that still starts with the anchored entry is refused when the line
after it is not UTF-8. -/
theorem tipIsPrefix_refuses_appended_line :
    AuditGrown soleCrates ⟨[str "w"]⟩ soleMachine [soleEntry] ∧
      tip soleCrates ⟨[str "w"]⟩ soleMachine.fs = .ok (1, soleEntry.hash) ∧
      ¬ (tipIsPrefix soleCrates ⟨[str "w"]⟩ 1 soleEntry.hash
          (logFabric (str "0 snap x" ++ [10, 255, 10])) = .ok () ↔
        Pinned soleCrates ⟨[str "w"]⟩ [soleEntry]
          (logFabric (str "0 snap x" ++ [10, 255, 10]))) := by
  refine ⟨soleMachine_grown, by decide +kernel, ?_⟩
  intro h
  have hpinned : Pinned soleCrates ⟨[str "w"]⟩ [soleEntry]
      (logFabric (str "0 snap x" ++ [10, 255, 10])) := by
    unfold Pinned
    decide +kernel
  exact absurd (h.mpr hpinned) (by decide +kernel)

/-- The members of an audit entry. -/
def entryMembers (e : AuditEntry) : List Json.Member :=
  [(str "seq", .num e.seq), (str "ts", .num e.ts), (str "event", .text e.event),
   (str "detail", .text e.detail), (str "prev", .text e.prev), (str "hash", .text e.hash)]

/-- The entry with these members. -/
def ofEntryMembers : List Json.Member → Option AuditEntry
  | [(_, .num seq), (_, .num ts), (_, .text event), (_, .text detail), (_, .text prev),
      (_, .text hash)] => some ⟨seq, ts, event, detail, prev, hash⟩
  | _ => none

/-- Read an entry from its line. -/
def readEntryLine (line : Bytes) : Except Bytes AuditEntry :=
  match (Json.parse line).bind ofEntryMembers with
  | some e => .ok e
  | none => .error (str "expected value")

/-- Crates that write the entries of the log and the tuples they hash as JSON. -/
def jsonLogCrates : Crates :=
  { smallCrates [] [] [] with
    auditToJson := fun e => Json.print (entryMembers e)
    auditOfJson := readEntryLine
    tupleToJson := fun t => 91 :: decimal t.1 ++ 44 :: decimal t.2.1 ++
      44 :: Json.printText t.2.2.1 ++
      44 :: Json.printText t.2.2.2.1 ++ 44 :: Json.printText t.2.2.2.2 ++ [93] }

/-- A new fabric. -/
def newLog : Machine := Machine.start (Fs.build (Store.fabricNodes ⟨[str "w"]⟩ []))

/-- Record an event there. -/
def logging (event detail : Bytes) (m : Machine) : EStateM.Result Error Machine Unit :=
  record jsonLogCrates ⟨[str "w"]⟩ event detail m

/-- The entry that makes. -/
def logged (event detail : Bytes) (m : Machine) : AuditEntry :=
  nextEntry jsonLogCrates ⟨[str "w"]⟩ event detail m.fs m.clock

/-- A snapshot is recorded whose message has quotes in it. -/
def logOfOne : Machine := finalState (logging (str "snap") (str "say \"hi\"") newLog)

/-- And the purge of a path with a backslash and a line break. -/
def logOfTwo : Machine := finalState (logging (str "purge") (str "a\\b\nc") logOfOne)

/-- And one event more. -/
def logOfThree : Machine := finalState (logging (str "revert") (str "x") logOfTwo)

def snapEntry : AuditEntry := logged (str "snap") (str "say \"hi\"") newLog

def purgeEntry : AuditEntry := logged (str "purge") (str "a\\b\nc") logOfOne

def revertEntry : AuditEntry := logged (str "revert") (str "x") logOfTwo

/-- So was a log with two. -/
theorem logOfTwo_grown :
    AuditGrown jsonLogCrates ⟨[str "w"]⟩ logOfTwo [snapEntry, purgeEntry] := by
  have hstart : LogIs ⟨[str "w"]⟩ newLog.fs [] :=
    ⟨by decide +kernel, Or.inl ⟨by decide +kernel, rfl⟩⟩
  have hfirst := AuditGrown.record (X := jsonLogCrates) (AuditGrown.start hstart)
    (eq_ok_of_succeeded (r := logging (str "snap") (str "say \"hi\"") newLog) (by decide +kernel))
  exact AuditGrown.record hfirst
    (eq_ok_of_succeeded (r := logging (str "purge") (str "a\\b\nc") logOfOne) (by decide +kernel))

/-- Its entries are encoded. -/
theorem logOfTwo_encodes : ∀ e ∈ [snapEntry, purgeEntry], Encodes jsonLogCrates e := by
  intro e he
  rcases List.mem_cons.mp he with rfl | he
  · exact ⟨by decide +kernel, by decide +kernel, by decide +kernel, by decide +kernel,
      by decide +kernel⟩
  · rw [List.mem_singleton.mp he]
    exact ⟨by decide +kernel, by decide +kernel, by decide +kernel, by decide +kernel,
      by decide +kernel⟩

/-- The three lines of the log that went on. -/
theorem logOfThree_parsed : (entryLines (logLines ⟨[str "w"]⟩ logOfThree.fs)).map
    (parseLine jsonLogCrates) = [some snapEntry, some purgeEntry, some revertEntry] := by
  decide +kernel

/-- The anchored entries are found in a log that has gone on since. -/
theorem tipIsPrefix_pins_iff_grown :
    purgeEntry.prev = snapEntry.hash ∧
      (tipIsPrefix jsonLogCrates ⟨[str "w"]⟩ 2 purgeEntry.hash logOfThree.fs = .ok () ↔
        Pinned jsonLogCrates ⟨[str "w"]⟩ [snapEntry, purgeEntry] logOfThree.fs) := by
  have hbodies : ∀ b ∈ bodies jsonLogCrates ⟨[str "w"]⟩ [snapEntry, purgeEntry] logOfThree.fs,
      b ∈ [snapEntry, purgeEntry, revertEntry].map body := by
    intro b hb
    obtain ⟨e, he, rfl⟩ := hb
    apply List.mem_map_of_mem
    rcases he with he | ⟨line, hline, he⟩
    · exact List.mem_append_left [revertEntry] he
    · have hmem : some e ∈ [some snapEntry, some purgeEntry, some revertEntry] := by
        rw [← logOfThree_parsed, ← he]
        exact List.mem_map_of_mem hline
      simpa using hmem
  have htuples : (([snapEntry, purgeEntry, revertEntry].map body).map
      jsonLogCrates.tupleToJson).Nodup := by
    decide +kernel
  have hhashes : ((([snapEntry, purgeEntry, revertEntry].map body).map
      jsonLogCrates.tupleToJson).map jsonLogCrates.blake3).Nodup := by
    decide +kernel
  refine ⟨by decide +kernel, (tipIsPrefix_pins_iff jsonLogCrates ⟨[str "w"]⟩ logOfTwo_grown
    logOfTwo_encodes (by simp) (by decide +kernel) ?_ ?_).mpr ?_⟩
  · intro a ha b hb
    exact List.inj_on_of_nodup_map htuples (hbodies a ha) (hbodies b hb)
  · intro a ha b hb
    obtain ⟨a', ha', rfl⟩ := ha
    obtain ⟨b', hb', rfl⟩ := hb
    exact List.inj_on_of_nodup_map hhashes (List.mem_map_of_mem (hbodies a' ha'))
      (List.mem_map_of_mem (hbodies b' hb'))
  · intro hunreadable
    obtain ⟨line, hline, hbad⟩ := hunreadable.2
    have hvalid : ((entryLines (logLines ⟨[str "w"]⟩ logOfThree.fs))[2]?).all validUtf8 = true := by
      decide +kernel
    rw [List.length_cons, List.length_cons, List.length_nil] at hline
    rw [hline] at hvalid
    exact absurd hvalid (by simp [hbad])

end Audit

end Respawn
