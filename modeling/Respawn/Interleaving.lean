import Mathlib.Data.List.Basic
import Mathlib.Logic.Function.Basic
import Respawn.AuditRun
import Respawn.Subcommands

/-!
# Processes that share a worktree

Any number of processes run subcommands on one worktree, each step of one coming
between any steps of the others.  `record` reads the tail of the audit log and
appends an entry made from what it read; it has no lock of its own.  A program
that takes the fabric lock first keeps it until it ends, so between two such
programs nothing is appended between a reading and the appending that follows.

The lock is one on the file that stands at `.respawn/lock` when it is taken.  A
revert or a purge can remove that file or put another in its place, and the
next process then takes the lock on the new file while the old one is still
held; the same commands can replace the log itself.

`chain_valid_iff` says which interleavings keep the chain as long as nothing but
`record` changes the log: those in which nothing is appended between a reading
and the appending that follows from it, except what the lock keeps out.
-/

namespace Respawn

open ByteStr FileTree StateLogic HashChain Audit

namespace Interleaving

/-- How far a process has got. -/
inductive Phase
  | waiting
  | running
  | recording (entry : AuditEntry)
  | over

/-- A step of one of the processes: one that concerns the lock or the log, or
any other. -/
inductive Act (Proc : Type)
  | lock (p : Proc)
  | refused (p : Proc)
  | start (p : Proc)
  | read (p : Proc)
  | append (p : Proc)
  | leave (p : Proc)
  | elsewhere
  | unlock (p : Proc)
  | rewrite (p : Proc)
  deriving DecidableEq

/-- The disk, the entries in the log, the lock file that stands there, the lock
file that each process has locked, and how far they are. -/
structure System (Proc : Type) where
  fs : Fs
  log : List AuditEntry
  lockFile : Nat
  holds : Proc → Option Nat
  phase : Proc → Phase

variable {Proc : Type} [DecidableEq Proc] (X : Suite) (st : Store)
  (runs : Proc → Cli.Subcommand)

/-- Set the phase of one process. -/
def System.at (s : System Proc) (p : Proc) (phase : Phase) : System Proc :=
  { s with phase := Function.update s.phase p phase }

/-- Does the process run under the lock? -/
def Locks (p : Proc) : Prop := Cli.LocksFirst st ((runs p).program X st)

/-- One step.  A process that leaves gives the lock back, and it can leave at
any time: it may be killed.  What a process does besides taking the lock and
recording can also put another file in the place of the lock (`unlock`) or
change the log (`rewrite`). -/
inductive Step : System Proc → Act Proc → System Proc → Prop
  | lock {s : System Proc} (p : Proc) (hlocks : Locks X st runs p)
      (hphase : s.phase p = .waiting) (hfree : ∀ q, s.holds q ≠ some s.lockFile) :
      Step s (.lock p)
        { s.at p .running with holds := Function.update s.holds p (some s.lockFile) }
  | refused {s : System Proc} (p q : Proc) (hlocks : Locks X st runs p)
      (hphase : s.phase p = .waiting) (hheld : s.holds q = some s.lockFile) :
      Step s (.refused p) (s.at p .over)
  | start {s : System Proc} (p : Proc) (hlocks : ¬ Locks X st runs p)
      (hphase : s.phase p = .waiting) : Step s (.start p) (s.at p .running)
  | read {s : System Proc} (p : Proc) (event detail : Bytes) (clock : Int)
      (hphase : s.phase p = .running) :
      Step s (.read p) (s.at p (.recording (nextEntry X.toCrates st event detail s.fs clock)))
  | append {s : System Proc} (p : Proc) (e : AuditEntry) (m m' : Machine)
      (hphase : s.phase p = .recording e) (hm : m.fs = s.fs)
      (hrun : Store.appendLine (auditPath st) (X.auditToJson e) m = .ok () m') :
      Step s (.append p) { s.at p .running with fs := m'.fs, log := s.log ++ [e] }
  | leave {s : System Proc} (p : Proc) :
      Step s (.leave p) { s.at p .over with holds := Function.update s.holds p none }
  | elsewhere {s : System Proc} (fs' : Fs) (text : Bytes) (hfs : LogIs st s.fs text)
      (hfs' : LogIs st fs' text) : Step s .elsewhere { s with fs := fs' }
  | unlock {s : System Proc} (p : Proc) (fs' : Fs) (text : Bytes) (new : Nat)
      (hphase : s.phase p = .running) (hnew : ∀ q, s.holds q ≠ some new)
      (hfs : LogIs st s.fs text) (hfs' : LogIs st fs' text) :
      Step s (.unlock p) { s with fs := fs', lockFile := new }
  | rewrite {s : System Proc} (p : Proc) (fs' : Fs) (log : List AuditEntry)
      (hphase : s.phase p = .running) : Step s (.rewrite p) { s with fs := fs', log := log }

/-- The steps from `s₀`, each with the state it led to. -/
inductive Run (s₀ : System Proc) : List (Act Proc × System Proc) → System Proc → Prop
  | nil : Run s₀ [] s₀
  | snoc {steps : List (Act Proc × System Proc)} {s s' : System Proc} {a : Act Proc}
      (run : Run s₀ steps s) (hstep : Step X st runs s a s') : Run s₀ (steps ++ [(a, s')]) s'

/-- No process has begun, and the log is a chain. -/
structure Start (s : System Proc) : Prop where
  text : LogIs st s.fs (logText X.toCrates s.log)
  linked : Linked (linking X.toCrates) 0 [] s.log
  phase : ∀ p, s.phase p = .waiting
  free : ∀ p, s.holds p = none

/-- The lock keeps the two processes apart: both run under it, and the file they
lock has stood there all along. -/
def KeptApart (acts : List (Act Proc)) (p q : Proc) : Prop :=
  Locks X st runs p ∧ Locks X st runs q ∧ ∀ r, .unlock r ∉ acts

/-- Nothing is appended between a reading and the appending that follows from
it, except by a process that the lock keeps away then. -/
def Undisturbed (acts : List (Act Proc)) : Prop :=
  ∀ front mid p q, front ++ .read p :: (mid ++ [.append p]) <+: acts → .read p ∉ mid →
    .append q ∈ mid → KeptApart X st runs (front ++ .read p :: mid) p q

/-- `verify` reports a valid chain. -/
def ReportsValid (fs : Fs) : Prop := ∃ r, verify X.toCrates st fs = .ok r ∧ r.valid = true

/-! ## What the steps keep -/

/-- The entry was made from the tail of this log. -/
structure Follows (front : List AuditEntry) (e : AuditEntry) : Prop where
  seq : e.seq = (following (0, []) front).1
  prev : e.prev = (following (0, []) front).2
  hash : e.hash = entryHash X.toCrates e.seq e.ts e.event e.detail e.prev

/-- Since the process read the tail, `mid` happened: `back` was appended, by no
process that the lock keeps apart from it. -/
structure Window (acts : List (Act Proc)) (log : List AuditEntry) (p : Proc) (e : AuditEntry)
    (mid : List (Act Proc)) : Prop where
  begun : ∃ front, acts = front ++ .read p :: mid
  last : .read p ∉ mid
  apart : ∀ q, .append q ∈ mid → ¬ KeptApart X st runs acts p q
  log : ∃ front back, log = front ++ back ∧ (back = [] ↔ ∀ q, .append q ∉ mid) ∧
    Follows X front e

/-- Who runs under the lock has locked a file, no two the same one, and all of
them the one that stands there, if that was never replaced. -/
structure Holding (acts : List (Act Proc)) (s : System Proc) : Prop where
  owner : ∀ p, Locks X st runs p → (s.phase p = .running ∨ ∃ e, s.phase p = .recording e) →
    ∃ i, s.holds p = some i
  single : ∀ p q i, s.holds p = some i → s.holds q = some i → p = q
  current : (∀ r, .unlock r ∉ acts) → ∀ p i, s.holds p = some i → i = s.lockFile

/-- The log is what the steps made it, the locks are held as they should be, and
each process that is recording has its window. -/
structure Inv (acts : List (Act Proc)) (s : System Proc) : Prop where
  text : LogIs st s.fs (logText X.toCrates s.log)
  holding : Holding X st runs acts s
  window : ∀ p e, s.phase p = .recording e → ∃ mid, Window X st runs acts s.log p e mid

variable {X st runs}

@[simp] theorem System.at_self (s : System Proc) (p : Proc) (phase : Phase) :
    (s.at p phase).phase p = phase := by
  simp [System.at]

theorem System.at_other (s : System Proc) {p q : Proc} (phase : Phase) (h : q ≠ p) :
    (s.at p phase).phase q = s.phase q := by
  simp [System.at, Function.update_of_ne h]

omit [DecidableEq Proc] in
/-- What keeps two processes apart has done so from the start. -/
theorem KeptApart.before {acts later : List (Act Proc)} {p q : Proc}
    (h : KeptApart X st runs (acts ++ later) p q) : KeptApart X st runs acts p q := by
  obtain ⟨hp, hq, hkept⟩ := h
  exact ⟨hp, hq, fun r hr => hkept r (List.mem_append_left _ hr)⟩

omit [DecidableEq Proc] in
/-- The window goes on while nothing is appended. -/
theorem Window.extend {acts mid : List (Act Proc)} {log : List AuditEntry} {p : Proc}
    {e : AuditEntry} {a : Act Proc} (h : Window X st runs acts log p e mid) (hread : a ≠ .read p)
    (happend : ∀ q, a ≠ .append q) : Window X st runs (acts ++ [a]) log p e (mid ++ [a]) := by
  have hold : ∀ q, .append q ∈ mid ++ [a] ↔ .append q ∈ mid := by
    intro q
    rw [List.mem_append, List.mem_singleton]
    exact or_iff_left fun heq => happend q heq.symm
  obtain ⟨front, hacts⟩ := h.begun
  obtain ⟨first, back, hlog, hback, hfollows⟩ := h.log
  refine ⟨⟨front, by simp [hacts]⟩, ?_, ?_, first, back, hlog, ?_, hfollows⟩
  · intro hmem
    rcases List.mem_append.mp hmem with hin | heq
    · exact h.last hin
    · exact hread (List.mem_singleton.mp heq).symm
  · intro q hq hkept
    exact h.apart q ((hold q).mp hq) hkept.before
  · rw [hback]
    exact forall_congr' fun q => not_congr (hold q).symm

omit [DecidableEq Proc] in
/-- The window goes on while another process appends. -/
theorem Window.append {acts mid : List (Act Proc)} {log : List AuditEntry} {p q : Proc}
    {e e' : AuditEntry} (h : Window X st runs acts log p e mid)
    (hapart : ¬ KeptApart X st runs acts p q) :
    Window X st runs (acts ++ [.append q]) (log ++ [e']) p e (mid ++ [.append q]) := by
  obtain ⟨front, hacts⟩ := h.begun
  obtain ⟨first, back, hlog, _, hfollows⟩ := h.log
  refine ⟨⟨front, by simp [hacts]⟩, ?_, ?_, first, back ++ [e'], by simp [hlog], ?_, hfollows⟩
  · intro hmem
    rcases List.mem_append.mp hmem with hin | heq
    · exact h.last hin
    · cases List.mem_singleton.mp heq
  · intro r hr hkept
    rcases List.mem_append.mp hr with hin | heq
    · exact h.apart r hin hkept.before
    · cases List.mem_singleton.mp heq
      exact hapart hkept.before
  · constructor
    · intro hnil
      simp at hnil
    · intro hnone
      exact absurd (List.mem_append_right _ (List.mem_singleton_self _)) (hnone q)

omit [DecidableEq Proc] in
/-- The window that a reading opens. -/
theorem Window.read {acts : List (Act Proc)} {log : List AuditEntry} {p : Proc} {fs : Fs}
    {event detail : Bytes} {clock : Int} (htext : LogIs st fs (logText X.toCrates log))
    (hes : ∀ e ∈ log, Encodes X.toCrates e) :
    Window X st runs (acts ++ [.read p]) log p (nextEntry X.toCrates st event detail fs clock)
      [] := by
  have hresume : resume X.toCrates (logLines st fs) = following (0, []) log := by
    rw [logLines_of_logIs st htext, fileLines_logText X.toCrates hes,
      resume_encoded X.toCrates hes]
  refine ⟨⟨acts, by simp⟩, by simp, by simp, log, [], by simp, by simp, ?_⟩
  exact ⟨by simp [nextEntry, hresume], by simp [nextEntry, hresume], by simp [nextEntry]⟩

/-- The log after a line was appended. -/
theorem logIs_append {X : Crates} {log : List AuditEntry} {e : AuditEntry} {m m' : Machine}
    (h : LogIs st m.fs (logText X log))
    (hrun : Store.appendLine (auditPath st) (X.auditToJson e) m = .ok () m') :
    LogIs st m'.fs (logText X (log ++ [e])) := by
  obtain ⟨hdir, htext⟩ := h
  have hnames : ∀ n ∈ auditPath st, ValidName n := by
    intro n hn
    rcases List.mem_append.mp hn with hn | hn
    · exact m.fs.valid_of_get hdir hn
    · rw [List.mem_singleton.mp hn]
      decide
  have hne : st.fabricDir ≠ auditPath st := by
    intro heq
    have hlen := congrArg List.length heq
    simp [auditPath] at hlen
  obtain ⟨w, d, hline, hd, hbytes, hframe, _⟩ := Store.appendLine_ok hnames
    (by simp [auditPath]) (by rw [auditPath_dropLast]; exact hdir) htext
  rw [hline] at hrun
  cases hrun
  refine ⟨(hframe _ hne).trans hdir, Or.inr ⟨d, hd, ?_⟩⟩
  rw [hbytes]
  simp [logText]

omit [DecidableEq Proc] in
/-- The invariant holds at the start. -/
theorem Inv.start {s : System Proc} (h : Start X st s) : Inv X st runs [] s := by
  refine ⟨h.text, ⟨?_, ?_, ?_⟩, ?_⟩
  · intro p _ hp
    rw [h.phase p] at hp
    rcases hp with hp | ⟨e, hp⟩ <;> cases hp
  · intro p q i hp
    rw [h.free p] at hp
    cases hp
  · intro _ p i hp
    rw [h.free p] at hp
    cases hp
  · intro p e hp
    rw [h.phase p] at hp
    cases hp

omit [DecidableEq Proc] in
/-- Two processes that the lock keeps apart do not both record. -/
theorem Inv.apart {acts : List (Act Proc)} {s : System Proc} (h : Inv X st runs acts s)
    {p q : Proc} (hne : p ≠ q) (hp : ∃ e, s.phase p = .recording e)
    (hq : ∃ e, s.phase q = .recording e) : ¬ KeptApart X st runs acts p q := by
  intro hkept
  obtain ⟨hlocksP, hlocksQ, hstands⟩ := hkept
  obtain ⟨i, hi⟩ := h.holding.owner p hlocksP (Or.inr hp)
  obtain ⟨j, hj⟩ := h.holding.owner q hlocksQ (Or.inr hq)
  have hsame : i = j :=
    (h.holding.current hstands p i hi).trans (h.holding.current hstands q j hj).symm
  exact hne (h.holding.single p q i hi (hsame ▸ hj))

omit [DecidableEq Proc] in
/-- The locks are held as they should be where none is taken or given back. -/
theorem Holding.same {acts : List (Act Proc)} {s s' : System Proc} {a : Act Proc}
    (h : Holding X st runs acts s) (hholds : s'.holds = s.holds)
    (hfile : s'.lockFile = s.lockFile ∨ ∃ r, a = .unlock r)
    (hphase : ∀ p, Locks X st runs p →
      (s'.phase p = .running ∨ ∃ e, s'.phase p = .recording e) →
        s.phase p = .running ∨ ∃ e, s.phase p = .recording e) :
    Holding X st runs (acts ++ [a]) s' := by
  refine ⟨?_, ?_, ?_⟩
  · intro p hlocks hrunning
    rw [hholds]
    exact h.owner p hlocks (hphase p hlocks hrunning)
  · rw [hholds]
    exact h.single
  · intro hstands p i hi
    rw [hholds] at hi
    rcases hfile with heq | ⟨r, rfl⟩
    · rw [heq]
      exact h.current (fun r hr => hstands r (List.mem_append_left _ hr)) p i hi
    · exact absurd (List.mem_append_right _ (List.mem_singleton_self _)) (hstands r)

/-- The lock is taken on the file that stands there, which nobody holds. -/
theorem Holding.lock {acts : List (Act Proc)} {s : System Proc} {p : Proc}
    (h : Holding X st runs acts s) (hfree : ∀ q, s.holds q ≠ some s.lockFile) :
    Holding X st runs (acts ++ [.lock p])
      { s.at p .running with holds := Function.update s.holds p (some s.lockFile) } := by
  have hheld : ∀ q, q ≠ p → Function.update s.holds p (some s.lockFile) q = s.holds q :=
    fun q hq => Function.update_of_ne hq _ _
  refine ⟨?_, ?_, ?_⟩
  · intro q hlocks hrunning
    by_cases hqp : q = p
    · exact ⟨s.lockFile, by simp [hqp]⟩
    · obtain ⟨i, hi⟩ := h.owner q hlocks (by rwa [← System.at_other s .running hqp])
      exact ⟨i, (hheld q hqp).trans hi⟩
  · intro q r i hq hr
    simp only at hq hr
    by_cases hqp : q = p
    · by_cases hrp : r = p
      · rw [hqp, hrp]
      · rw [hqp, Function.update_self] at hq
        rw [hheld r hrp, ← Option.some.inj hq] at hr
        exact absurd hr (hfree r)
    · by_cases hrp : r = p
      · rw [hrp, Function.update_self] at hr
        rw [hheld q hqp, ← Option.some.inj hr] at hq
        exact absurd hq (hfree q)
      · rw [hheld q hqp] at hq
        rw [hheld r hrp] at hr
        exact h.single q r i hq hr
  · intro hstands q i hq
    simp only at hq
    by_cases hqp : q = p
    · rw [hqp, Function.update_self] at hq
      exact (Option.some.inj hq).symm
    · rw [hheld q hqp] at hq
      exact h.current (fun r hr => hstands r (List.mem_append_left _ hr)) q i hq

/-- A process that ends gives its lock back. -/
theorem Holding.leave {acts : List (Act Proc)} {s : System Proc} {p : Proc}
    (h : Holding X st runs acts s) : Holding X st runs (acts ++ [.leave p])
      { s.at p .over with holds := Function.update s.holds p none } := by
  have hheld : ∀ q i, Function.update s.holds p none q = some i → s.holds q = some i := by
    intro q i hq
    by_cases hqp : q = p
    · rw [hqp, Function.update_self] at hq
      cases hq
    · rwa [Function.update_of_ne hqp] at hq
  refine ⟨?_, ?_, ?_⟩
  · intro q hlocks hrunning
    by_cases hqp : q = p
    · rw [hqp, show (System.phase _ p) = (s.at p .over).phase p from rfl,
        System.at_self] at hrunning
      rcases hrunning with hr | ⟨e, hr⟩ <;> cases hr
    · obtain ⟨i, hi⟩ := h.owner q hlocks (by rwa [← System.at_other s .over hqp])
      exact ⟨i, (Function.update_of_ne hqp _ _).trans hi⟩
  · intro q r i hq hr
    exact h.single q r i (hheld q i hq) (hheld r i hr)
  · intro hstands q i hq
    exact h.current (fun r hr => hstands r (List.mem_append_left _ hr)) q i (hheld q i hq)

/-- The phase of `p` is set to one that is not recording, and nothing is appended. -/
theorem Inv.settle {acts : List (Act Proc)} {s : System Proc} {a : Act Proc} {p : Proc}
    {phase : Phase} (h : Inv X st runs acts s) (hread : ∀ q, a ≠ .read q)
    (happend : ∀ q, a ≠ .append q) (hphase : ∀ e, phase ≠ .recording e) :
    ∀ q e, (s.at p phase).phase q = .recording e →
      ∃ mid, Window X st runs (acts ++ [a]) s.log q e mid := by
  intro q e hq
  by_cases hqp : q = p
  · subst hqp
    rw [System.at_self] at hq
    exact absurd hq (hphase e)
  · rw [System.at_other s phase hqp] at hq
    obtain ⟨mid, hmid⟩ := h.window q e hq
    exact ⟨_, hmid.extend (hread q) happend⟩

/-- Who is at work after the phase of `p` was set was so before, if `p` was. -/
theorem atWork_at {s : System Proc} {p q : Proc} {phase : Phase}
    (hp : (phase = .running ∨ ∃ e, phase = .recording e) →
      s.phase p = .running ∨ ∃ e, s.phase p = .recording e)
    (hq : (s.at p phase).phase q = .running ∨ ∃ e, (s.at p phase).phase q = .recording e) :
    s.phase q = .running ∨ ∃ e, s.phase q = .recording e := by
  by_cases hqp : q = p
  · rw [hqp, System.at_self] at hq
    rw [hqp]
    exact hp hq
  · rwa [System.at_other s phase hqp] at hq

/-- **Each step keeps the invariant**, unless it changes the log otherwise. -/
theorem Inv.step {acts : List (Act Proc)} {s s' : System Proc} {a : Act Proc}
    (h : Inv X st runs acts s) (hstep : Step X st runs s a s') (ha : ∀ p, a ≠ .rewrite p)
    (hes : ∀ e ∈ s.log, Encodes X.toCrates e) : Inv X st runs (acts ++ [a]) s' := by
  cases hstep with
  | lock p hlocks hphase hfree =>
      exact ⟨h.text, h.holding.lock hfree, h.settle (by simp) (by simp) (by simp)⟩
  | refused p q hlocks hphase hheld =>
      refine ⟨h.text, h.holding.same rfl (Or.inl rfl) ?_, h.settle (by simp) (by simp) (by simp)⟩
      intro r _ hr
      exact atWork_at (by simp) hr
  | start p hlocks hphase =>
      refine ⟨h.text, h.holding.same rfl (Or.inl rfl) ?_, h.settle (by simp) (by simp) (by simp)⟩
      intro r hr hrunning
      by_cases hrp : r = p
      · exact absurd (hrp ▸ hr) hlocks
      · rwa [System.at_other s .running hrp] at hrunning
  | read p event detail clock hphase =>
      refine ⟨h.text, h.holding.same rfl (Or.inl rfl) ?_, ?_⟩
      · intro r _ hr
        exact atWork_at (fun _ => Or.inl hphase) hr
      · intro q e hq
        by_cases hqp : q = p
        · subst hqp
          rw [System.at_self] at hq
          cases hq
          exact ⟨[], Window.read h.text hes⟩
        · rw [System.at_other s _ hqp] at hq
          obtain ⟨mid, hmid⟩ := h.window q e hq
          exact ⟨_, hmid.extend (fun heq => hqp (Act.read.inj heq).symm) (by simp)⟩
  | append p e m m' hphase hm hrun =>
      refine ⟨logIs_append (hm ▸ h.text) hrun, h.holding.same rfl (Or.inl rfl) ?_, ?_⟩
      · intro r _ hr
        exact atWork_at (fun _ => Or.inr ⟨e, hphase⟩) hr
      · intro q e' hq
        by_cases hqp : q = p
        · subst hqp
          rw [show (System.phase _ q) = (s.at q .running).phase q from rfl,
            System.at_self] at hq
          cases hq
        · have hq' : s.phase q = .recording e' := by
            rw [← System.at_other s .running hqp]
            exact hq
          obtain ⟨mid, hmid⟩ := h.window q e' hq'
          exact ⟨_, hmid.append (h.apart hqp ⟨e', hq'⟩ ⟨e, hphase⟩)⟩
  | leave p => exact ⟨h.text, h.holding.leave, h.settle (by simp) (by simp) (by simp)⟩
  | elsewhere fs' text hfs hfs' =>
      refine ⟨?_, h.holding.same rfl (Or.inl rfl) fun _ _ hr => hr, ?_⟩
      · rw [LogIs.text_eq st h.text hfs]
        exact hfs'
      · intro q e hq
        obtain ⟨mid, hmid⟩ := h.window q e hq
        exact ⟨_, hmid.extend (by simp) (by simp)⟩
  | unlock p fs' text new hphase hnew hfs hfs' =>
      refine ⟨?_, h.holding.same rfl (Or.inr ⟨p, rfl⟩) fun _ _ hr => hr, ?_⟩
      · rw [LogIs.text_eq st h.text hfs]
        exact hfs'
      · intro q e hq
        obtain ⟨mid, hmid⟩ := h.window q e hq
        exact ⟨_, hmid.extend (by simp) (by simp)⟩
  | rewrite p fs' log hphase => exact absurd rfl (ha p)

/-! ## When the chain stays valid -/

omit [DecidableEq Proc] in
/-- `verify` accepts the log exactly when it is a chain. -/
theorem reportsValid_iff {acts : List (Act Proc)} {s : System Proc} (h : Inv X st runs acts s)
    (hes : ∀ e ∈ s.log, Encodes X.toCrates e) :
    ReportsValid X st s.fs ↔ Linked (linking X.toCrates) 0 [] s.log := by
  unfold ReportsValid
  rw [verify_of_logIs h.text hes]
  constructor
  · intro hr
    obtain ⟨r, hr, hvalid⟩ := hr
    exact linked_of_verifyLines hes hr hvalid
  · intro hlinked
    exact ⟨_, verifyLines_linked hes hlinked, rfl⟩

omit [DecidableEq Proc] in
/-- An entry continues the chain exactly when nothing was appended since the
tail was read. -/
theorem linked_append_iff {acts mid : List (Act Proc)} {log : List AuditEntry} {p : Proc}
    {e : AuditEntry} (h : Window X st runs acts log p e mid)
    (hlinked : Linked (linking X.toCrates) 0 [] log) (hlen : log.length < 2 ^ 64) :
    Linked (linking X.toCrates) 0 [] (log ++ [e]) ↔ ∀ q, .append q ∉ mid := by
  obtain ⟨front, back, rfl, hback, hfollows⟩ := h.log
  have hfront : front.length < 2 ^ 64 := by
    rw [List.length_append] at hlen
    omega
  have hnext := following_linked X.toCrates hlinked.of_append hfront
  have hseq : e.seq = front.length := by rw [hfollows.seq, hnext]
  have hprev : e.prev = lastHash (linking X.toCrates) [] front := by rw [hfollows.prev, hnext]
  rw [← hback]
  constructor
  · intro hall
    have hcount : e.seq = 0 + (front ++ back).length := (linked_concat.mp hall).2.1
    rw [hseq, List.length_append] at hcount
    exact List.length_eq_zero_iff.mp (by omega)
  · intro hnil
    subst hnil
    rw [List.append_nil] at hlinked ⊢
    refine linked_concat.mpr ⟨hlinked, ?_, hprev, hfollows.hash⟩
    show e.seq = 0 + front.length
    omega

/-- What comes after the last occurrence is determined. -/
theorem after_last_unique {α : Type} {x : α} {l l' mid mid' : List α}
    (h : l ++ x :: mid = l' ++ x :: mid') (hmid : x ∉ mid) (hmid' : x ∉ mid') : mid = mid' := by
  rcases List.append_eq_append_iff.mp h with ⟨between, _, hrest⟩ | ⟨between, _, hrest⟩
  · cases between with
    | nil => exact (List.cons.inj hrest).2
    | cons b between =>
        exfalso
        apply hmid
        rw [(List.cons.inj hrest).2]
        simp
  · cases between with
    | nil => exact (List.cons.inj hrest).2.symm
    | cons b between =>
        exfalso
        apply hmid'
        rw [(List.cons.inj hrest).2]
        simp

/-- A step appends the entry that its process made, or nothing, unless it
changes the log otherwise. -/
theorem Step.log {s s' : System Proc} {a : Act Proc} (h : Step X st runs s a s')
    (ha : ∀ p, a ≠ .rewrite p) :
    (s'.log = s.log ∧ ∀ p, a ≠ .append p) ∨
      ∃ p e, a = .append p ∧ s.phase p = .recording e ∧ s'.log = s.log ++ [e] := by
  cases h with
  | append p e m m' hphase hm hrun => exact Or.inr ⟨p, e, rfl, hphase, rfl⟩
  | rewrite p fs' log hphase => exact absurd rfl (ha p)
  | _ => exact Or.inl ⟨rfl, by simp⟩

omit [DecidableEq Proc] in
/-- A run that does not end in an appending is disturbed where it was before. -/
theorem undisturbed_concat {acts : List (Act Proc)} {a : Act Proc} (ha : ∀ p, a ≠ .append p) :
    Undisturbed X st runs (acts ++ [a]) ↔ Undisturbed X st runs acts := by
  constructor
  · intro h front mid p q hpre
    exact h front mid p q (hpre.trans (List.prefix_append _ _))
  · intro h front mid p q hpre
    rcases List.prefix_concat_iff.mp hpre with heq | hin
    · exfalso
      rw [← List.cons_append, ← List.append_assoc] at heq
      exact ha p (List.cons.inj (List.append_inj' heq rfl).2).1.symm
    · exact h front mid p q hin

omit [DecidableEq Proc] in
/-- An appending leaves a run undisturbed exactly when nothing was appended in
its window. -/
theorem undisturbed_append {acts mid : List (Act Proc)} {log : List AuditEntry} {p : Proc}
    {e : AuditEntry} (h : Window X st runs acts log p e mid) :
    Undisturbed X st runs (acts ++ [.append p]) ↔
      Undisturbed X st runs acts ∧ ∀ q, .append q ∉ mid := by
  obtain ⟨front, hacts⟩ := h.begun
  constructor
  · intro hall
    refine ⟨fun f m r q hpre => hall f m r q (hpre.trans (List.prefix_append _ _)), ?_⟩
    intro q hq
    have hkept := hall front mid p q (by rw [hacts]; simp) h.last hq
    exact h.apart q hq (hacts ▸ hkept)
  · intro hboth f m r q hpre hlast hq
    rcases List.prefix_concat_iff.mp hpre with heq | hin
    · exfalso
      rw [← List.cons_append, ← List.append_assoc] at heq
      obtain ⟨hsame, hp⟩ := List.append_inj' heq rfl
      cases hp
      have hmid := after_last_unique (hsame.trans hacts) hlast h.last
      exact hboth.2 q (hmid ▸ hq)
    · exact hboth.1 f m r q hin hlast hq

/-- The log only grows. -/
theorem Step.log_prefix {s s' : System Proc} {a : Act Proc} (h : Step X st runs s a s')
    (ha : ∀ p, a ≠ .rewrite p) : s.log <+: s'.log := by
  rcases h.log ha with ⟨heq, _⟩ | ⟨p, e, _, _, heq⟩
  · rw [heq]
  · rw [heq]
    exact List.prefix_append _ _

variable (X st runs)

/-- **Which interleavings keep the chain.**  In a run where nothing but `record`
changes the log, `verify` reports a valid chain after every step exactly when no
process appends between the reading and the appending of another, except where
the lock keeps the two apart. -/
theorem chain_valid_iff (s₀ s : System Proc) (steps : List (Act Proc × System Proc))
    (hstart : Start X st s₀) (run : Run X st runs s₀ steps s)
    (hkept : ∀ p, .rewrite p ∉ steps.map Prod.fst) (hes : ∀ e ∈ s.log, Encodes X.toCrates e)
    (hlen : s.log.length < 2 ^ 64) :
    (∀ t ∈ s₀ :: steps.map Prod.snd, ReportsValid X st t.fs) ↔
      Undisturbed X st runs (steps.map Prod.fst) := by
  have hboth : Inv X st runs (steps.map Prod.fst) s ∧
      ((∀ t ∈ s₀ :: steps.map Prod.snd, ReportsValid X st t.fs) ↔
        Undisturbed X st runs (steps.map Prod.fst)) ∧
      ((∀ t ∈ s₀ :: steps.map Prod.snd, ReportsValid X st t.fs) →
        Linked (linking X.toCrates) 0 [] s.log) := by
    induction run with
    | nil =>
        have hinv : Inv X st runs [] s₀ := Inv.start hstart
        have hvalid := (reportsValid_iff hinv hes).mpr hstart.linked
        refine ⟨hinv, ?_, fun _ => hstart.linked⟩
        constructor
        · intro _ front mid p q hpre
          simp at hpre
        · intro _ t ht
          rw [List.mem_singleton.mp ht]
          exact hvalid
    | @snoc steps s s' a run hstep ih =>
        simp only [List.map_append, List.map_cons, List.map_nil, List.mem_append,
          List.mem_singleton, not_or] at hkept
        have ha : ∀ p, a ≠ .rewrite p := fun p heq => (hkept p).2 heq.symm
        have hgrows := hstep.log_prefix ha
        have hes' : ∀ e ∈ s.log, Encodes X.toCrates e := fun e he => hes e (hgrows.subset he)
        have hlen' : s.log.length < 2 ^ 64 := Nat.lt_of_le_of_lt hgrows.length_le hlen
        obtain ⟨hinv, hiff, hchain⟩ := ih (fun p => (hkept p).1) hes' hlen'
        have hinv' := hinv.step hstep ha hes'
        have hvalid := reportsValid_iff hinv' hes
        simp only [List.map_append, List.map_cons, List.map_nil] at hinv' ⊢
        have hstates : (∀ t ∈ s₀ :: (steps.map Prod.snd ++ [s']), ReportsValid X st t.fs) ↔
            (∀ t ∈ s₀ :: steps.map Prod.snd, ReportsValid X st t.fs) ∧
              ReportsValid X st s'.fs := by
          rw [← List.cons_append]
          simp only [List.forall_mem_append, List.forall_mem_singleton]
        rw [hstates]
        refine ⟨hinv', ?_, fun h => hvalid.mp h.2⟩
        rcases hstep.log ha with ⟨hlog, hnone⟩ | ⟨p, e, rfl, hphase, hlog⟩
        · rw [undisturbed_concat hnone, ← hiff, hvalid, hlog]
          exact and_iff_left_of_imp hchain
        · obtain ⟨mid, hwindow⟩ := hinv.window p e hphase
          rw [undisturbed_append hwindow, ← hiff, hvalid, hlog]
          apply and_congr_right
          intro hold
          exact linked_append_iff hwindow (hchain hold) hlen'
  exact hboth.2.1

/-! ### Two processes on a new fabric -/

/-- The first entry of a fabric, at time zero. -/
def initEntry : AuditEntry where
  seq := 0
  ts := 0
  event := str "init"
  detail := str "/w"
  prev := []
  hash := entryHash (smallCrates [] [] []) 0 0 (str "init") (str "/w") []

/-- The entry of a snapshot after it. -/
def snapEntry : AuditEntry where
  seq := 1
  ts := 0
  event := str "snap"
  detail := str "id"
  prev := initEntry.hash
  hash := entryHash (smallCrates [] [] []) 1 0 (str "snap") (str "id") initEntry.hash

/-- Crates whose JSON forms of these entries are `0 init` and `1 snap`. -/
def initCrates : Crates :=
  smallCrates [] [(str "0 init", initEntry), (str "1 snap", snapEntry)] []

def initSuite : Suite :=
  { Fleet.fleetCrates with
    toCrates := initCrates
    anchorToJson := fun _ => []
    anchorOfJson := fun _ => .error []
    anchorPayloadToJson := fun _ => []
    anchorPayloadOfJson := fun _ => .error [] }

/-- A new fabric whose lock cannot be taken: a directory is in its place. -/
def barredFabric : Fs :=
  Fs.build (Store.fabricNodes ⟨[str "w"]⟩ [] ++ [([str "w", FABRIC_DIR, str "lock"], .dir)])

/-- **`init` does not take the lock**: it succeeds where the lock cannot be taken. -/
theorem init_locks_not :
    ¬ Cli.LocksFirst ⟨[str "w"]⟩ (Cli.Subcommand.init.program initSuite ⟨[str "w"]⟩) := by
  intro h
  obtain ⟨body, hbody⟩ := h
  obtain ⟨e, hbarred⟩ := exists_of_failed (r := Store.tryLock ⟨[str "w"]⟩
    (Machine.start barredFabric)) (by decide +kernel)
  obtain ⟨_, hruns⟩ := exists_of_succeeded (r := Cli.Subcommand.init.program initSuite ⟨[str "w"]⟩
    (Machine.start barredFabric)) (by decide +kernel)
  rcases hbody (Machine.start barredFabric) with hlock | ⟨e', hfail⟩
  · rw [bind_apply, hbarred, hruns] at hlock
    cases hlock
  · rw [hruns] at hfail
    cases hfail

/-- A new fabric on which no process has begun. -/
def newSystem : System Bool :=
  { fs := Fs.build (Store.fabricNodes ⟨[str "w"]⟩ [])
    log := []
    lockFile := 0
    holds := fun _ => none
    phase := fun _ => .waiting }

theorem newSystem_start : Start initSuite ⟨[str "w"]⟩ newSystem :=
  ⟨⟨by decide +kernel, Or.inl ⟨by decide +kernel, rfl⟩⟩, trivial, fun _ => rfl, fun _ => rfl⟩

theorem encodes_initEntry : Encodes initCrates initEntry :=
  ⟨by decide +kernel, by decide +kernel, by decide +kernel, by decide +kernel, by decide +kernel⟩

theorem encodes_snapEntry : Encodes initCrates snapEntry :=
  ⟨by decide +kernel, by decide +kernel, by decide +kernel, by decide +kernel, by decide +kernel⟩

/-- The disk after a line was appended to the log. -/
def recorded (line : Bytes) (fs : Fs) : Machine :=
  finalState (Store.appendLine (auditPath ⟨[str "w"]⟩) line (Machine.start fs))

/-- A process reads the tail of the log, and makes an entry from it. -/
theorem read_entry {s : System Bool} {runs : Bool → Cli.Subcommand} (p : Bool) (e : AuditEntry)
    (hentry : nextEntry initCrates ⟨[str "w"]⟩ e.event e.detail s.fs 0 = e)
    (hphase : s.phase p = .running) :
    Step initSuite ⟨[str "w"]⟩ runs s (.read p) (s.at p (.recording e)) := by
  have hstep : Step initSuite ⟨[str "w"]⟩ runs s (.read p) (s.at p (.recording
      (nextEntry initCrates ⟨[str "w"]⟩ e.event e.detail s.fs 0))) :=
    Step.read p e.event e.detail 0 hphase
  rwa [hentry] at hstep

/-- A process appends the entry it made. -/
theorem append_entry {s : System Bool} {runs : Bool → Cli.Subcommand} (p : Bool) (e : AuditEntry)
    (hphase : s.phase p = .recording e)
    (hok : succeeded (Store.appendLine (auditPath ⟨[str "w"]⟩) (initCrates.auditToJson e)
      (Machine.start s.fs)) = true) :
    Step initSuite ⟨[str "w"]⟩ runs s (.append p) { s.at p .running with
      fs := (recorded (initCrates.auditToJson e) s.fs).fs, log := s.log ++ [e] } :=
  Step.append p e (Machine.start s.fs) (recorded (initCrates.auditToJson e) s.fs) hphase rfl
    (eq_ok_of_succeeded hok)

/-- In a list of steps that can be searched, an appending and the reading it
follows are found by their places. -/
theorem undisturbed_of_places {X : Suite} {st : Store} {runs : Bool → Cli.Subcommand}
    {acts : List (Act Bool)}
    (h : ∀ n ∈ List.range (acts.length + 1), ∀ k ∈ List.range n, ∀ p q,
      acts[k]? = some (.read p) →
      (acts.take n).getLast? = some (.append p) → .read p ∉ (acts.take n).drop (k + 1) →
      .append q ∉ ((acts.take n).drop (k + 1)).dropLast) :
    Undisturbed X st runs acts := by
  intro front mid p q hpre hlast hq
  obtain ⟨rest, hrest⟩ := hpre
  have htake : acts.take (front.length + (mid.length + 2)) =
      front ++ .read p :: (mid ++ [.append p]) := by
    rw [← hrest, List.take_append_of_le_length (by simp), List.take_of_length_le (by simp)]
  have hdrop : (acts.take (front.length + (mid.length + 2))).drop (front.length + 1) =
      mid ++ [.append p] := by
    rw [htake, ← List.drop_drop, List.drop_left]
    rfl
  refine absurd ?_ (h (front.length + (mid.length + 2)) (List.mem_range.mpr ?_) front.length
    (List.mem_range.mpr (by omega)) p q ?_ ?_ ?_)
  · rw [hdrop, List.dropLast_concat]
    exact hq
  · have hlen := congrArg List.length hrest
    simp only [List.length_append, List.length_cons, List.length_nil] at hlen
    omega
  · rw [← hrest]
    simp
  · rw [htake, ← List.cons_append, ← List.append_assoc, List.getLast?_concat]
  · rw [hdrop]
    simpa using hlast

/-- One process runs `init`, the other takes a snapshot. -/
def initAndSnap : Bool → Cli.Subcommand
  | true => .init
  | false => .snap (str "first") none

/-- The snapshot takes the lock while `init` runs; each records its event. -/
def initAndSnapSteps : List (Act Bool × System Bool) :=
  let s₁ := newSystem.at true .running
  let s₂ := { s₁.at false .running with holds := Function.update s₁.holds false (some 0) }
  let s₃ := s₂.at true (.recording initEntry)
  let s₄ := { s₃.at true .running with
    fs := (recorded (initCrates.auditToJson initEntry) s₃.fs).fs, log := s₃.log ++ [initEntry] }
  let s₅ := s₄.at false (.recording snapEntry)
  let s₆ := s₅.at true .over
  let s₇ := { s₆ with holds := Function.update s₅.holds true none }
  let s₈ := { s₇.at false .running with
    fs := (recorded (initCrates.auditToJson snapEntry) s₇.fs).fs, log := s₇.log ++ [snapEntry] }
  [(.start true, s₁), (.lock false, s₂), (.read true, s₃), (.append true, s₄),
    (.read false, s₅), (.leave true, s₇), (.append false, s₈)]

/-- The state they end in. -/
def initAndSnapLast : System Bool := (initAndSnapSteps.getLast (by simp [initAndSnapSteps])).2

/-- The two run as it says. -/
theorem initAndSnap_run :
    Run initSuite ⟨[str "w"]⟩ initAndSnap newSystem initAndSnapSteps initAndSnapLast := by
  have hsnap : Locks initSuite ⟨[str "w"]⟩ initAndSnap false :=
    Cli.Subcommand.locksFirst _ (by simp [initAndSnap])
  have r₁ := Run.nil.snoc (Step.start true init_locks_not rfl :
    Step initSuite ⟨[str "w"]⟩ initAndSnap newSystem (.start true) (newSystem.at true .running))
  have r₂ := r₁.snoc (Step.lock false hsnap rfl fun _ => by simp [System.at, newSystem])
  have r₃ := r₂.snoc (read_entry true initEntry (by decide +kernel) rfl)
  have r₄ := r₃.snoc (append_entry true initEntry rfl (by decide +kernel))
  have r₅ := r₄.snoc (read_entry false snapEntry (by decide +kernel) rfl)
  have r₆ := r₅.snoc (Step.leave true)
  exact r₆.snoc (append_entry false snapEntry rfl (by decide +kernel))

/-- **The two do not disturb each other**, and the log is a chain throughout. -/
theorem chain_valid_iff_two : (newSystem :: initAndSnapSteps.map Prod.snd).Forall
    fun t => ReportsValid initSuite ⟨[str "w"]⟩ t.fs := by
  apply List.forall_iff_forall_mem.mpr
  refine (chain_valid_iff initSuite ⟨[str "w"]⟩ initAndSnap newSystem initAndSnapLast
    initAndSnapSteps newSystem_start initAndSnap_run ?_ ?_ ?_).mpr ?_
  · intro p
    simp [initAndSnapSteps]
  · intro e he
    have hmem : e ∈ [initEntry, snapEntry] := he
    rcases List.mem_cons.mp hmem with rfl | hmem
    · exact encodes_initEntry
    · rw [List.mem_singleton.mp hmem]
      exact encodes_snapEntry
  · exact (by decide : [initEntry, snapEntry].length < 2 ^ 64)
  · exact undisturbed_of_places (by decide)

/-- No interleaving of any processes makes `verify` find a broken chain. -/
def NeverForks (X : Suite) (st : Store) : Prop :=
  ∀ (Proc : Type) [DecidableEq Proc] (runs : Proc → Cli.Subcommand) (s₀ s : System Proc)
    (steps : List (Act Proc × System Proc)), Start X st s₀ → Run X st runs s₀ steps s →
      (∀ e ∈ s.log, Encodes X.toCrates e) → s.log.length < 2 ^ 64 →
      ∀ t ∈ s₀ :: steps.map Prod.snd, ReportsValid X st t.fs

/-- Two `init` that read the empty log before either appends fork the chain. -/
theorem init_forks : ¬ NeverForks initSuite ⟨[str "w"]⟩ := by
  intro h
  let s₁ := newSystem.at true .running
  let s₂ := s₁.at false .running
  let s₃ := s₂.at true (.recording initEntry)
  let s₄ := s₃.at false (.recording initEntry)
  let s₅ := { s₄.at true .running with
    fs := (recorded (initCrates.auditToJson initEntry) newSystem.fs).fs, log := [initEntry] }
  let s₆ := { s₅.at false .running with
    fs := (recorded (initCrates.auditToJson initEntry) s₅.fs).fs, log := [initEntry, initEntry] }
  have run : Run initSuite ⟨[str "w"]⟩ (fun _ => .init) newSystem
      [(.start true, s₁), (.start false, s₂), (.read true, s₃), (.read false, s₄),
        (.append true, s₅), (.append false, s₆)] s₆ := by
    have r₁ : Run initSuite ⟨[str "w"]⟩ (fun _ => .init) newSystem [(.start true, s₁)] s₁ :=
      .snoc .nil (Step.start true init_locks_not rfl)
    have r₂ := r₁.snoc (Step.start false init_locks_not rfl)
    have r₃ := r₂.snoc (show Step _ _ _ s₂ (.read true) s₃ from
      read_entry true initEntry (by decide +kernel) rfl)
    have r₄ := r₃.snoc (show Step _ _ _ s₃ (.read false) s₄ from
      read_entry false initEntry (by decide +kernel) rfl)
    have r₅ := r₄.snoc (show Step _ _ _ s₄ (.append true) s₅ from
      append_entry true initEntry rfl (by decide +kernel))
    exact r₅.snoc (append_entry false initEntry rfl (by decide +kernel))
  have hes : ∀ e ∈ s₆.log, Encodes initCrates e := by
    intro e he
    have hmem : e ∈ [initEntry, initEntry] := he
    simp only [List.mem_cons, List.not_mem_nil, or_false, or_self] at hmem
    rw [hmem]
    exact encodes_initEntry
  obtain ⟨r, hr, hvalid⟩ := h Bool _ _ _ _ newSystem_start run hes (by decide) s₆ (by simp)
  have hbroken : verify initCrates ⟨[str "w"]⟩ s₆.fs = .ok ⟨1, false, some 0⟩ := by decide +kernel
  cases hr.symm.trans hbroken
  cases hvalid

end Interleaving

end Respawn
