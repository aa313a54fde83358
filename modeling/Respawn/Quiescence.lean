import Mathlib.Algebra.Group.Int.Defs
import Mathlib.Logic.Relation
import Respawn.RoundTrip
import Respawn.Stamps

/-!
# Capturing files that others write

`create_from_actor` captures one file after another, and any step of another
process may come between two of its system calls.  For each file it reads the
metadata, then stamps, opens, reads piece by piece and stamps again, up to four
times.  An open file stays the one it was when its path is given to another.

The metadata that goes into the entry is read before everything else, so as
long as the file shows that time its content is the one that was read:
`capture_race_safe`.  With nobody else at work the steps do what `captureFile`
does (`captureFile_runs`).
-/

namespace Respawn

open ByteStr FileTree StateLogic Stamps

namespace Quiescence

open Snapshot

/-! ## The shared disk -/

inductive Kind
  | regular
  | link
  | directory
  deriving DecidableEq

/-- A file that exists, whatever paths lead to it. -/
structure Inode where
  kind : Kind
  bytes : Bytes
  mtime : Int
  mode : Nat

/-- Which inode each path of the tree leads to, and the inodes. -/
structure Disk (ι : Type) where
  place : Path → Option ι
  inode : ι → Inode

/-- What a path leads to, as far as a write changes it. -/
structure Version (ι : Type) where
  inode : ι
  kind : Kind
  bytes : Bytes
  mtime : Int

variable {ι : Type}

/-- `fs::symlink_metadata`. -/
def Disk.stat (D : Disk ι) (rel : Path) : Option Inode := (D.place rel).map D.inode

def Disk.version (D : Disk ι) (rel : Path) : Option (Version ι) :=
  (D.place rel).map fun i =>
    { inode := i
      kind := (D.inode i).kind
      bytes := (D.inode i).bytes
      mtime := (D.inode i).mtime }

/-- A directory, whose time anyone may set. -/
def Version.Free (v : Version ι) : Prop := v.kind = .directory

/-- The time is at or after 1970 and its nanoseconds fit 64 bits. -/
def Representable (t : Int) : Prop := 0 ≤ t ∧ t < 2 ^ 64

/-- `file_stamp`: size, and nanoseconds in 64 bits. -/
def stampOf (x : Inode) : Nat × Nat :=
  (x.bytes.length, (unixSecs x.mtime * 1000000000 + subsecNanos x.mtime) % 2 ^ 64)

/-! ## The capture, step by step -/

/-- The file being captured, its metadata as first read, and the retries left. -/
structure Attempt where
  rel : Path
  found : Inode
  retries : Nat

/-- Which call comes next. -/
inductive Phase (ι : Type)
  | walking
  | stamping (a : Attempt)
  | opening (a : Attempt) (before : Nat × Nat)
  | reading (a : Attempt) (before : Nat × Nat) (i : ι) (data : Bytes)
  | comparing (a : Attempt) (before : Nat × Nat) (data : Bytes)
  | failed

/-- The disk, the disks there were before, latest first, where the capture is,
and what it has captured. -/
structure System (ι : Type) where
  disk : Disk ι
  before : List (Disk ι)
  phase : Phase ι
  done : List (Path × Capture)

abbrev History (ι : Type) := List (Option (Version ι))

/-- What a path has led to, latest first. -/
def System.history (s : System ι) (rel : Path) : History ι :=
  (s.disk :: s.before).map fun D => D.version rel

/-- Others have written. -/
def System.write (s : System ι) (disk : Disk ι) : System ι :=
  { s with disk := disk, before := s.disk :: s.before }

/-- The capture goes on to another call. -/
def System.at (s : System ι) (phase : Phase ι) : System ι := { s with phase := phase }

variable (X : Crates) (patterns : List Bytes) (tombs : List Tombstone)

/-- The walk does not pass over the file. -/
def Kept (rel : Path) : Prop :=
  Snapshot.excluded rel = false ∧ ignored patterns (relStr rel) = false ∧
    (tombs.any fun t => t.path = relStr rel) = false ∧ ∃ r, sanitizeRel (relStr rel) = .ok r

/-- What the walk makes of a file whose bytes it has read. -/
def captureOf (a : Attempt) (data : Bytes) (changing : Bool) : Capture :=
  let content := X.blake3 (chunksOf X data).flatten
  let unstable := if changing then some (relStr a.rel) else none
  if tombs.any fun t => t.content = hashHex content then ⟨none, unstable⟩
  else ⟨some { path := relStr a.rel
               mode := a.found.mode % 512
               size := (chunksOf X data).flatten.length
               mtimeSecs := unixSecs a.found.mtime
               mtimeNanos := subsecNanos a.found.mtime
               content := content
               chunks := chunkHashes X data }, unstable⟩

/-- One step, of the capture or of others.  When others write, every path leads
to what it led to, or to something with a time it never showed before; only a
path that has been nothing but a directory is left out of this.  The walk may
find any path at any time, and a call that fails ends the capture. -/
inductive Step : System ι → System ι → Prop
  | others {s : System ι} (disk : Disk ι)
      (hfresh : ∀ rel, Fresh Version.mtime Version.Free (disk.version rel) (s.history rel))
      (htimes : ∀ rel v, disk.version rel = some v → Representable v.mtime) :
      Step s (s.write disk)
  | metadata {s : System ι} {rel : Path} {x : Inode} (hphase : s.phase = .walking)
      (hkept : Kept patterns tombs rel) (hstat : s.disk.stat rel = some x) :
      Step s (s.at (.stamping ⟨rel, x, QUIESCE_RETRIES⟩))
  | stamp {s : System ι} {a : Attempt} {x : Inode} (hphase : s.phase = .stamping a)
      (hstat : s.disk.stat a.rel = some x) : Step s (s.at (.opening a (stampOf x)))
  | opened {s : System ι} {a : Attempt} {before : Nat × Nat} {i : ι}
      (hphase : s.phase = .opening a before) (hplace : s.disk.place a.rel = some i)
      (hregular : (s.disk.inode i).kind = .regular) :
      Step s (s.at (.reading a before i []))
  | read {s : System ι} {a : Attempt} {before : Nat × Nat} {i : ι} {data : Bytes} (n : Nat)
      (hphase : s.phase = .reading a before i data) :
      Step s (s.at
        (.reading a before i (data ++ ((s.disk.inode i).bytes.drop data.length).take n)))
  | eof {s : System ι} {a : Attempt} {before : Nat × Nat} {i : ι} {data : Bytes}
      (hphase : s.phase = .reading a before i data)
      (hend : (s.disk.inode i).bytes.length ≤ data.length) :
      Step s (s.at (.comparing a before data))
  | settle {s : System ι} {a : Attempt} {before : Nat × Nat} {data : Bytes} {x : Inode}
      (hphase : s.phase = .comparing a before data) (hstat : s.disk.stat a.rel = some x)
      (hlast : before = stampOf x ∨ a.retries = 0) :
      Step s { s.at .walking with
        done := s.done ++ [(a.rel, captureOf X tombs a data (before ≠ stampOf x))] }
  | retry {s : System ι} {a : Attempt} {before : Nat × Nat} {data : Bytes} {x : Inode} {n : Nat}
      (hphase : s.phase = .comparing a before data) (hstat : s.disk.stat a.rel = some x)
      (hchanged : before ≠ stampOf x) (hretries : a.retries = n + 1) :
      Step s (s.at (.stamping { a with retries := n }))
  | fail {s : System ι} : Step s (s.at .failed)

/-- Any number of steps. -/
abbrev Run : System ι → System ι → Prop := Relation.ReflTransGen (Step X patterns tombs)

/-- The capture is about to begin. -/
structure Start (s : System ι) : Prop where
  before : s.before = []
  phase : s.phase = .walking
  done : s.done = []
  times : ∀ rel v, s.disk.version rel = some v → Representable v.mtime

/-- The manifest lists what was captured. -/
structure Made (s : System ι) (mf : Manifest) : Prop where
  files : mf.files = s.done.filterMap fun c => c.2.entry
  unstable : mf.unstable = s.done.filterMap fun c => c.2.unstable

/-! ## What the steps keep -/

variable {X patterns tombs} {s s' : System ι} {h : History ι} {rel : Path} {a : Attempt}
  {before : Nat × Nat} {next : Option (Version ι)} {u v w : Version ι} {fe : FileEntry}
  {c : Capture}

/-- The entry says what bytes `b` are. -/
structure Describes (X : Crates) (fe : FileEntry) (b : Bytes) : Prop where
  content : fe.content = X.blake3 (chunksOf X b).flatten
  chunks : fe.chunks = chunkHashes X b
  size : fe.size = (chunksOf X b).flatten.length

/-- A path led to `v` at some time, and does until the time of `v` is lost. -/
structure Seen (h : History ι) (v : Version ι) : Prop where
  shown : some v ∈ h
  holds : Holds Version.mtime Version.Free v h

/-- The path no longer shows that time. -/
abbrev Gone (h : History ι) (t : Int) : Prop := Lost Version.mtime Version.Free t h

/-- The path has led to something that is no directory. -/
abbrev Busy (h : History ι) : Prop := ¬ Idle Version.Free h

/-- Others may write this. -/
abbrev Allowed (h : History ι) (next : Option (Version ι)) : Prop :=
  Fresh Version.mtime Version.Free next h

/-- The metadata is that of `v`, and the first stamp that of `w`. -/
structure Stamped (h : History ι) (a : Attempt) (before : Nat × Nat) (v w : Version ι) :
    Prop where
  found : Seen h v
  time : a.found.mtime = v.mtime
  first : Seen h w
  stamp : ∃ x, before = stampOf x ∧ x.mtime = w.mtime
  same : Gone h v.mtime ∨ w = v

/-- What a captured file's entry says: the path; unless the file was changing,
the bytes of one version; and the time of a version whose bytes it describes as
long as the path shows that time. -/
structure Faithful (X : Crates) (h : History ι) (rel : Path) (c : Capture) (fe : FileEntry) :
    Prop where
  path : fe.path = relStr rel
  stable : some fe.path ≠ c.unstable → ∃ v, some v ∈ h ∧ v.kind = .regular ∧
    Describes X fe v.bytes
  busy : Busy h
  timed : ∃ v, Seen h v ∧ fe.mtimeSecs = unixSecs v.mtime ∧
    fe.mtimeNanos = subsecNanos v.mtime ∧ (Gone h v.mtime ∨ Describes X fe v.bytes)

/-- What is known while a file is being captured. -/
def PhaseInv (history : Path → History ι) : Phase ι → Prop
  | .walking | .failed => True
  | .stamping a => ∃ v, Seen (history a.rel) v ∧ a.found.mtime = v.mtime
  | .opening a before => ∃ v w, Stamped (history a.rel) a before v w
  | .reading a before i data => Busy (history a.rel) ∧
      ∃ v w, Stamped (history a.rel) a before v w ∧
        (Gone (history a.rel) w.mtime ∨ w.kind = .regular ∧ i = w.inode ∧ data <+: w.bytes)
  | .comparing a before data => Busy (history a.rel) ∧
      ∃ v w, Stamped (history a.rel) a before v w ∧
        (Gone (history a.rel) w.mtime ∨ w.kind = .regular ∧ data = w.bytes)

/-- All times are representable, and what was captured is faithful. -/
structure Inv (X : Crates) (s : System ι) : Prop where
  times : ∀ rel v, some v ∈ s.history rel → Representable v.mtime
  phase : PhaseInv s.history s.phase
  done : ∀ rel c fe, (rel, c) ∈ s.done → c.entry = some fe → Faithful X (s.history rel) rel c fe

/-! ### Times -/

/-- A time that is representable, from its seconds and nanoseconds. -/
theorem toNat_of_representable {t : Int} (h : Representable t) :
    unixSecs t * 1000000000 + subsecNanos t = t.toNat := by
  obtain ⟨hpos, _⟩ := h
  unfold unixSecs subsecNanos
  rw [if_neg (by omega)]
  omega

/-- Equal stamps are those of equal times. -/
theorem mtime_of_stampOf {x y : Inode} (hx : Representable x.mtime) (hy : Representable y.mtime)
    (heq : stampOf x = stampOf y) : x.mtime = y.mtime := by
  have hnanos := congrArg Prod.snd heq
  simp only [stampOf, toNat_of_representable hx, toNat_of_representable hy] at hnanos
  obtain ⟨hx0, hx1⟩ := hx
  obtain ⟨hy0, hy1⟩ := hy
  rw [Nat.mod_eq_of_lt (by omega), Nat.mod_eq_of_lt (by omega)] at hnanos
  omega

/-- A time is told by its seconds and its nanoseconds. -/
theorem mtime_of_parts {t t' : Int} (ht : Representable t) (ht' : Representable t')
    (hsecs : unixSecs t = unixSecs t') (hnanos : subsecNanos t = subsecNanos t') : t = t' := by
  have heq := toNat_of_representable ht
  rw [hsecs, hnanos, toNat_of_representable ht'] at heq
  obtain ⟨_, _⟩ := ht
  obtain ⟨_, _⟩ := ht'
  omega

/-! ### When others write -/

theorem Seen.cons (h' : Seen h v) (hnext : Allowed h next) : Seen (next :: h) v :=
  ⟨List.mem_cons_of_mem _ h'.shown, h'.holds.cons hnext⟩

theorem Busy.cons (h' : Busy h) : Busy (next :: h) := fun hidle => h' hidle.tail

theorem Stamped.cons (h' : Stamped h a before v w) (hnext : Allowed h next) :
    Stamped (next :: h) a before v w :=
  ⟨h'.found.cons hnext, h'.time, h'.first.cons hnext, h'.stamp,
    h'.same.imp_left fun hgone => hgone.cons hnext⟩

/-- A capture that was faithful stays so as history goes on. -/
theorem Faithful.cons (h' : Faithful X h rel c fe) (hnext : Allowed h next) :
    Faithful X (next :: h) rel c fe := by
  obtain ⟨v, hseen, hsecs, hnanos, hbytes⟩ := h'.timed
  refine ⟨h'.path, ?_, Busy.cons h'.busy, v, hseen.cons hnext, hsecs, hnanos,
    hbytes.imp_left fun hgone => hgone.cons hnext⟩
  intro hflag
  obtain ⟨w, hw, hregular, hdescribes⟩ := h'.stable hflag
  exact ⟨w, List.mem_cons_of_mem _ hw, hregular, hdescribes⟩

/-- What is known in a phase stays known while others write. -/
theorem PhaseInv.write {disk : Disk ι} {phase : Phase ι} (h' : PhaseInv s.history phase)
    (hnext : ∀ rel, Allowed (s.history rel) (disk.version rel)) :
    PhaseInv (s.write disk).history phase := by
  cases phase with
  | walking => trivial
  | failed => trivial
  | stamping a =>
      obtain ⟨v, hseen, htime⟩ := h'
      exact ⟨v, hseen.cons (hnext _), htime⟩
  | opening a before =>
      obtain ⟨v, w, hstamped⟩ := h'
      exact ⟨v, w, hstamped.cons (hnext _)⟩
  | reading a before i data =>
      obtain ⟨hbusy, v, w, hstamped, hread⟩ := h'
      exact ⟨Busy.cons hbusy, v, w, hstamped.cons (hnext _),
        hread.imp_left fun hgone => hgone.cons (hnext _)⟩
  | comparing a before data =>
      obtain ⟨hbusy, v, w, hstamped, hread⟩ := h'
      exact ⟨Busy.cons hbusy, v, w, hstamped.cons (hnext _),
        hread.imp_left fun hgone => hgone.cons (hnext _)⟩

/-- The invariant stays while others write. -/
theorem Inv.write {disk : Disk ι} (h' : Inv X s)
    (hnext : ∀ rel, Allowed (s.history rel) (disk.version rel))
    (htimes : ∀ rel v, disk.version rel = some v → Representable v.mtime) :
    Inv X (s.write disk) := by
  refine ⟨?_, h'.phase.write hnext, ?_⟩
  · intro rel v hv
    rcases List.mem_cons.mp hv with heq | hmem
    · exact htimes rel v heq.symm
    · exact h'.times rel v hmem
  · intro rel c fe hc hentry
    exact (h'.done rel c fe hc hentry).cons (hnext rel)

/-! ### What the capture sees -/

/-- What a path's metadata is that of. -/
theorem version_of_stat {D : Disk ι} {x : Inode} (hstat : D.stat rel = some x) :
    ∃ v, D.version rel = some v ∧ v.mtime = x.mtime ∧ v.bytes = x.bytes ∧ v.kind = x.kind := by
  unfold Disk.stat at hstat
  obtain ⟨i, hplace, rfl⟩ := Option.map_eq_some_iff.mp hstat
  exact ⟨⟨i, _, _, _⟩, by rw [Disk.version, hplace]; rfl, rfl, rfl, rfl⟩

theorem head_history (hversion : s.disk.version rel = some v) :
    (s.history rel).head? = some (some v) := congrArg some hversion

/-- What a path leads to is seen. -/
theorem Seen.now (hhead : h.head? = some (some v)) : Seen h v :=
  ⟨mem_of_head hhead, Or.inl hhead⟩

/-- What was seen is still there, or its time is gone. -/
theorem Seen.or_eq (h' : Seen h v) (hhead : h.head? = some (some u)) :
    Gone h v.mtime ∨ u = v := by
  rcases h'.holds with hnow | hlost
  · rw [hhead] at hnow
    exact Or.inr (Option.some.inj (Option.some.inj hnow))
  · exact Or.inl hlost

/-- What is written in a version. -/
theorem inode_of_version {D : Disk ι} (hversion : D.version rel = some v) :
    D.place rel = some v.inode ∧ (D.inode v.inode).bytes = v.bytes ∧
      (D.inode v.inode).kind = v.kind := by
  unfold Disk.version at hversion
  obtain ⟨i, hplace, rfl⟩ := Option.map_eq_some_iff.mp hversion
  exact ⟨hplace, rfl, rfl⟩

/-- What was seen is still what an open file holds, or its time is gone. -/
theorem Seen.or_inode (h' : Seen (s.history rel) v) :
    Gone (s.history rel) v.mtime ∨ (s.disk.inode v.inode).bytes = v.bytes := by
  rcases h'.holds with hnow | hlost
  · exact Or.inr (inode_of_version (Option.some.inj hnow)).2.1
  · exact Or.inl hlost

/-- A time that a busy path shows is not gone. -/
theorem not_gone (hhead : h.head? = some (some u)) (hbusy : Busy h) (htime : u.mtime = v.mtime) :
    ¬ Gone h v.mtime := by
  rw [← htime]
  exact not_lost hhead hbusy

/-- The first stamp is that of a version the capture has seen. -/
theorem Stamped.init {x : Inode} (hfound : Seen (s.history a.rel) v)
    (htime : a.found.mtime = v.mtime) (hstat : s.disk.stat a.rel = some x) :
    ∃ w, Stamped (s.history a.rel) a (stampOf x) v w := by
  obtain ⟨w, hversion, hmtime, _⟩ := version_of_stat hstat
  have hhead := head_history hversion
  exact ⟨w, hfound, htime, Seen.now hhead, ⟨x, rfl, hmtime.symm⟩, hfound.or_eq hhead⟩

/-- An open file is the one that was stamped, or the stamp's time is gone. -/
theorem PhaseInv.opened {i : ι} (h' : Stamped (s.history a.rel) a before v w)
    (hplace : s.disk.place a.rel = some i) (hregular : (s.disk.inode i).kind = .regular) :
    PhaseInv s.history (.reading a before i []) := by
  obtain ⟨u, hversion, hinode, hkind⟩ : ∃ u, s.disk.version a.rel = some u ∧ u.inode = i ∧
      u.kind = .regular := ⟨⟨i, _, _, _⟩, by rw [Disk.version, hplace]; rfl, rfl, hregular⟩
  have hhead := head_history hversion
  refine ⟨?_, v, w, h', ?_⟩
  · intro hidle
    have hfree : u.kind = .directory := hidle u (mem_of_head hhead)
    rw [hkind] at hfree
    cases hfree
  · apply (h'.first.or_eq hhead).imp_right
    intro heq
    subst heq
    exact ⟨hkind, hinode.symm, List.nil_prefix⟩

/-- What was read so far, and one piece more. -/
theorem prefix_append_piece {data bytes : Bytes} (n : Nat) (hpre : data <+: bytes) :
    data ++ (bytes.drop data.length).take n <+: bytes := by
  obtain ⟨rest, rfl⟩ := hpre
  rw [List.drop_left]
  exact (List.prefix_append_right_inj data).mpr (List.take_prefix n rest)

/-- **A captured file is faithful.**  The second stamp is read; if it is the
first one, nothing was written in between. -/
theorem Faithful.settled {data : Bytes} {x : Inode} (h' : Inv X s)
    (hbusy : Busy (s.history a.rel)) (hstamped : Stamped (s.history a.rel) a before v w)
    (hread : Gone (s.history a.rel) w.mtime ∨ w.kind = .regular ∧ data = w.bytes)
    (hstat : s.disk.stat a.rel = some x)
    (hentry : (captureOf X tombs a data (before ≠ stampOf x)).entry = some fe) :
    Faithful X (s.history a.rel) a.rel (captureOf X tombs a data (before ≠ stampOf x)) fe := by
  obtain ⟨u, hversion, hmtime, _⟩ := version_of_stat hstat
  have hhead := head_history hversion
  unfold captureOf at hentry ⊢
  simp only at hentry ⊢
  split at hentry
  · cases hentry
  case isFalse hclean =>
    rw [if_neg hclean]
    cases hentry
    refine ⟨rfl, ?_, hbusy, v, hstamped.found, by rw [hstamped.time], by rw [hstamped.time], ?_⟩
    · intro hflag
      have hsame : before = stampOf x := by
        by_contra hne
        exact hflag (by simp [hne])
      obtain ⟨y, hbefore, hy⟩ := hstamped.stamp
      have htime : u.mtime = w.mtime := by
        rw [hmtime, ← hy]
        apply mtime_of_stampOf
        · rw [← hmtime]
          exact h'.times _ u (mem_of_head hhead)
        · rw [hy]
          exact h'.times _ w hstamped.first.shown
        · rw [← hsame, hbefore]
      obtain ⟨hregular, hdata⟩ := hread.resolve_left (not_gone hhead hbusy htime)
      refine ⟨w, hstamped.first.shown, hregular, ?_⟩
      rw [← hdata]
      exact ⟨rfl, rfl, rfl⟩
    · rcases hstamped.same with hgone | heq
      · exact Or.inl hgone
      · rw [← heq]
        apply hread.imp_right
        intro hdata
        rw [← hdata.2]
        exact ⟨rfl, rfl, rfl⟩

/-- **One step** keeps the invariant. -/
theorem Inv.step (h' : Inv X s) (hstep : Step X patterns tombs s s') : Inv X s' := by
  cases hstep with
  | others disk hfresh htimes => exact h'.write hfresh htimes
  | metadata hphase hkept hstat =>
      obtain ⟨v, hversion, hmtime, _⟩ := version_of_stat hstat
      exact ⟨h'.times, ⟨v, Seen.now (head_history hversion), hmtime.symm⟩, h'.done⟩
  | stamp hphase hstat =>
      have hinv := h'.phase
      rw [hphase] at hinv
      obtain ⟨v, hseen, htime⟩ := hinv
      exact ⟨h'.times, ⟨v, Stamped.init hseen htime hstat⟩, h'.done⟩
  | opened hphase hplace hregular =>
      have hinv := h'.phase
      rw [hphase] at hinv
      obtain ⟨v, w, hstamped⟩ := hinv
      exact ⟨h'.times, PhaseInv.opened hstamped hplace hregular, h'.done⟩
  | read n hphase =>
      have hinv := h'.phase
      rw [hphase] at hinv
      obtain ⟨hbusy, v, w, hstamped, hread⟩ := hinv
      refine ⟨h'.times, ⟨hbusy, v, w, hstamped, ?_⟩, h'.done⟩
      rcases hread with hgone | ⟨hregular, rfl, hpre⟩
      · exact Or.inl hgone
      · apply hstamped.first.or_inode.imp_right
        intro hbytes
        refine ⟨hregular, rfl, ?_⟩
        rw [hbytes]
        exact prefix_append_piece n hpre
  | eof hphase hend =>
      have hinv := h'.phase
      rw [hphase] at hinv
      obtain ⟨hbusy, v, w, hstamped, hread⟩ := hinv
      refine ⟨h'.times, ⟨hbusy, v, w, hstamped, ?_⟩, h'.done⟩
      rcases hread with hgone | ⟨hregular, rfl, hpre⟩
      · exact Or.inl hgone
      · apply hstamped.first.or_inode.imp_right
        intro hbytes
        rw [hbytes] at hend
        exact ⟨hregular, hpre.eq_of_length_le hend⟩
  | settle hphase hstat hlast =>
      have hinv := h'.phase
      rw [hphase] at hinv
      obtain ⟨hbusy, v, w, hstamped, hread⟩ := hinv
      refine ⟨h'.times, trivial, ?_⟩
      intro rel c fe hc hentry
      rcases List.mem_append.mp hc with hold | hnew
      · exact h'.done rel c fe hold hentry
      · cases List.mem_singleton.mp hnew
        have hsettled := Faithful.settled h' hbusy hstamped hread hstat hentry
        exact hsettled
  | retry hphase hstat hchanged hretries =>
      have hinv := h'.phase
      rw [hphase] at hinv
      obtain ⟨_, v, w, hstamped, _⟩ := hinv
      exact ⟨h'.times, ⟨v, hstamped.found, hstamped.time⟩, h'.done⟩
  | fail => exact ⟨h'.times, trivial, h'.done⟩

/-- The invariant holds at the start. -/
theorem Inv.start (h' : Start s) : Inv X s := by
  refine ⟨?_, ?_, ?_⟩
  · intro rel v hv
    unfold System.history at hv
    rw [h'.before] at hv
    exact h'.times rel v (List.mem_singleton.mp hv).symm
  · rw [h'.phase]
    trivial
  · intro rel c fe hc
    rw [h'.done] at hc
    cases hc

/-- **A whole run** keeps the invariant. -/
theorem Inv.run (h' : Inv X s) (hrun : Run X patterns tombs s s') : Inv X s' := by
  induction hrun with
  | refl => exact h'
  | tail _ hstep ih => exact ih.step hstep

/-- What was captured stays captured. -/
theorem Run.keeps (hrun : Run X patterns tombs s s') : ∀ c ∈ s.done, c ∈ s'.done := by
  induction hrun with
  | refl => exact fun _ hc => hc
  | tail _ hstep ih =>
      cases hstep with
      | settle _ _ _ => exact fun c hc => List.mem_append_left _ (ih c hc)
      | _ => exact ih

/-! ## With nobody else at work -/

/-- A file that nobody writes is read in four steps. -/
theorem reads_run {i : ι} {x : Inode} (hphase : s.phase = .stamping a)
    (hplace : s.disk.place a.rel = some i) (hinode : s.disk.inode i = x)
    (hregular : x.kind = .regular) :
    Run X patterns tombs s (s.at (.comparing a (stampOf x) x.bytes)) := by
  have hstat : s.disk.stat a.rel = some x := by
    rw [Disk.stat, hplace, Option.map_some, hinode]
  have hstamp : Step X patterns tombs s (s.at (.opening a (stampOf x))) := .stamp hphase hstat
  have hopen : Step X patterns tombs (s.at (.opening a (stampOf x)))
      (s.at (.reading a (stampOf x) i [])) :=
    .opened (s := s.at (.opening a (stampOf x))) rfl hplace (by
      show (s.disk.inode i).kind = .regular
      rw [hinode, hregular])
  have hread : Step X patterns tombs (s.at (.reading a (stampOf x) i []))
      (s.at (.reading a (stampOf x) i
        ([] ++ ((s.disk.inode i).bytes.drop ([] : Bytes).length).take x.bytes.length))) :=
    .read (s := s.at (.reading a (stampOf x) i [])) x.bytes.length rfl
  have hall : [] ++ ((s.disk.inode i).bytes.drop ([] : Bytes).length).take x.bytes.length =
      x.bytes := by
    rw [hinode]
    simp
  rw [hall] at hread
  have heof : Step X patterns tombs (s.at (.reading a (stampOf x) i x.bytes))
      (s.at (.comparing a (stampOf x) x.bytes)) :=
    .eof (s := s.at (.reading a (stampOf x) i x.bytes)) rfl (by
      show (s.disk.inode i).bytes.length ≤ x.bytes.length
      rw [hinode])
  exact (((Relation.ReflTransGen.single hstamp).tail hopen).tail hread).tail heof

/-- Read so, and found unchanged, it is captured. -/
theorem settles_run {i : ι} {x : Inode} (hphase : s.phase = .stamping a)
    (hplace : s.disk.place a.rel = some i) (hinode : s.disk.inode i = x)
    (hregular : x.kind = .regular) :
    Run X patterns tombs s { s.at .walking with
      done := s.done ++ [(a.rel, captureOf X tombs a x.bytes false)] } := by
  have hstat : s.disk.stat a.rel = some x := by
    rw [Disk.stat, hplace, Option.map_some, hinode]
  have hsettle : Step X patterns tombs (s.at (.comparing a (stampOf x) x.bytes))
      { s.at .walking with
        done := s.done ++ [(a.rel, captureOf X tombs a x.bytes (stampOf x ≠ stampOf x))] } :=
    .settle (s := s.at (.comparing a (stampOf x) x.bytes)) rfl hstat (Or.inl rfl)
  rw [decide_eq_false (not_not.mpr rfl)] at hsettle
  exact (reads_run hphase hplace hinode hregular).tail hsettle

/-- A file that nobody writes is captured. -/
theorem quiet_run {i : ι} {x : Inode} (hphase : s.phase = .walking)
    (hkept : Kept patterns tombs rel) (hplace : s.disk.place rel = some i)
    (hinode : s.disk.inode i = x) (hregular : x.kind = .regular) :
    Run X patterns tombs s { s.at .walking with
      done := s.done ++ [(rel, captureOf X tombs ⟨rel, x, QUIESCE_RETRIES⟩ x.bytes false)] } := by
  have hstat : s.disk.stat rel = some x := by
    rw [Disk.stat, hplace, Option.map_some, hinode]
  obtain ⟨a, ha⟩ : ∃ a : Attempt, a = ⟨rel, x, QUIESCE_RETRIES⟩ := ⟨_, rfl⟩
  have hrel : a.rel = rel := by rw [ha]
  have hmeta : Step X patterns tombs s (s.at (.stamping a)) := by
    rw [ha]
    exact .metadata hphase hkept hstat
  have hsettles : Run X patterns tombs (s.at (.stamping a)) _ :=
    settles_run rfl (hrel ▸ hplace) hinode hregular
  rw [hrel, ha] at hsettles
  exact .head (ha ▸ hmeta) hsettles

/-- The tree under `root`, as a disk of its own. -/
def diskOf (root : Path) (fs : Fs) : Disk Path :=
  { place := fun rel => if (fs.get (root ++ rel)).isSome then some rel else none
    inode := fun rel => match fs.get (root ++ rel) with
      | some (.file d) => { kind := .regular, bytes := d.bytes, mtime := d.mtime, mode := d.mode }
      | some (.symlink t) => { kind := .link, bytes := t, mtime := 0, mode := 0 }
      | _ => { kind := .directory, bytes := [], mtime := 0, mode := 0 } }

/-- **The steps are those of `captureFile`**: what it makes of a file that
nobody else writes, a run makes of it too. -/
theorem captureFile_runs {st : Store} {root : Path} {d : FileData} {m : Machine}
    {s : System Path} (hreal : st.Real m.fs) (hout : ¬ st.fabricDir <+: root ++ rel)
    (hfile : m.fs.get (root ++ rel) = some (.file d)) (hkept : Kept patterns tombs rel)
    (hphase : s.phase = .walking) (hdisk : s.disk = diskOf root m.fs) :
    After (captureFile X st root tombs rel d m)
      (fun c _ => Run X patterns tombs s { s.at .walking with done := s.done ++ [(rel, c)] })
      (fun _ _ => True) := by
  have hplace : s.disk.place rel = some rel := by
    rw [hdisk]
    simp [diskOf, hfile]
  have hinode : s.disk.inode rel =
      { kind := .regular, bytes := d.bytes, mtime := d.mtime, mode := d.mode } := by
    rw [hdisk]
    simp [diskOf, hfile]
  apply (captureFile_after hreal hout hfile).mono
  · intro c _ hc
    obtain ⟨⟨hentry, hunstable⟩, _⟩ := hc
    have hsame : captureOf X tombs ⟨rel, s.disk.inode rel, QUIESCE_RETRIES⟩ d.bytes false = c := by
      rw [hinode]
      obtain ⟨entry, unstable⟩ := c
      simp only at hentry hunstable
      subst hentry hunstable
      unfold captureOf fileEntry
      simp only
      split <;> rfl
    have hrun := quiet_run (X := X) hphase hkept hplace rfl (by rw [hinode])
    rw [show (s.disk.inode rel).bytes = d.bytes by rw [hinode], hsame] at hrun
    exact hrun
  · intro _ _ _
    trivial

/-! ## What a manifest is good for -/

/-- The regular file that a path leads to. -/
def Disk.file (D : Disk ι) (rel : Path) : Option FileData :=
  match D.stat rel with
  | some x =>
      if x.kind = .regular then some { bytes := x.bytes, mode := x.mode, mtime := x.mtime }
      else none
  | none => none

/-- The entry names the file at `rel`.  It describes one version of that file,
unless it is listed as unstable; and whenever a fast comparison passes over the
file because its size and time are those of the entry, the entry has the hash
of what the file holds. -/
structure RaceSafe (X : Crates) (patterns : List Bytes) (tombs : List Tombstone) (s : System ι)
    (mf : Manifest) (rel : Path) (fe : FileEntry) : Prop where
  path : fe.path = relStr rel
  single : fe.path ∉ mf.unstable → ∃ v, some v ∈ s.history rel ∧ v.kind = .regular ∧
    fe.content = X.blake3 v.bytes ∧ fe.chunks = chunkHashes X v.bytes ∧ fe.size = v.bytes.length
  skipped : ∀ (s' : System ι) (d : FileData) (root : Path) (fs : Fs),
    Run X patterns tombs s s' → s'.disk.file rel = some d →
    entryAt mf.files (relStr rel) = some fe →
    Drift.compare X root mf false rel d fs = .ok .untouched → X.blake3 d.bytes = fe.content

/-- A fast comparison passes over a file only for its size and time. -/
theorem parts_of_untouched {root : Path} {mf : Manifest} {d : FileData} {fs : Fs}
    (hentry : entryAt mf.files (relStr rel) = some fe)
    (hskip : Drift.compare X root mf false rel d fs = .ok .untouched) :
    unixSecs d.mtime = fe.mtimeSecs ∧ subsecNanos d.mtime = fe.mtimeNanos := by
  unfold Drift.compare at hskip
  rw [hentry] at hskip
  simp only at hskip
  split at hskip
  case isTrue hfast => exact ⟨hfast.2.2.1, hfast.2.2.2⟩
  · split at hskip
    · cases hskip
    · split at hskip <;> cases hskip

/-- While the path shows the time in the entry, its content is the entry's. -/
theorem Faithful.live {d : FileData} (h' : Inv X s)
    (hfaithful : Faithful X (s.history rel) rel c fe)
    (hfile : s.disk.file rel = some d) (hsecs : unixSecs d.mtime = fe.mtimeSecs)
    (hnanos : subsecNanos d.mtime = fe.mtimeNanos) : Describes X fe d.bytes := by
  obtain ⟨v, hseen, hvsecs, hvnanos, hbytes⟩ := hfaithful.timed
  unfold Disk.file at hfile
  split at hfile
  case _ x hstat =>
    split at hfile
    · cases hfile
      obtain ⟨u, hversion, hmtime, hubytes, _⟩ := version_of_stat hstat
      have hhead := head_history hversion
      have htime : u.mtime = v.mtime := by
        apply mtime_of_parts (h'.times _ u (mem_of_head hhead)) (h'.times _ v hseen.shown)
        · rw [hmtime, hsecs, hvsecs]
        · rw [hmtime, hnanos, hvnanos]
      have heq : u = v := hseen.holds.eq hhead hfaithful.busy htime
      rw [← hubytes, heq]
      exact hbytes.resolve_left (not_gone hhead hfaithful.busy htime)
    · cases hfile
  · cases hfile

/-- **Capture is race safe**, whatever other processes write between its steps. -/
theorem capture_race_safe (X : Crates) (patterns : List Bytes) (tombs : List Tombstone)
    (hcdc : ∀ data, (X.fastcdc CDC_MIN CDC_AVG CDC_MAX data).flatten = data)
    (s₀ s : System ι) (mf : Manifest) (hstart : Start s₀) (hrun : Run X patterns tombs s₀ s)
    (hmade : Made s mf) :
    ∀ fe ∈ mf.files, ∃ rel c, (rel, c) ∈ s.done ∧ c.entry = some fe ∧
      RaceSafe X patterns tombs s mf rel fe := by
  intro fe hfe
  rw [hmade.files] at hfe
  obtain ⟨⟨rel, c⟩, hc, hentry⟩ := List.mem_filterMap.mp hfe
  have hinv := (Inv.start (X := X) hstart).run hrun
  have hfaithful := hinv.done rel c fe hc hentry
  refine ⟨rel, c, hc, hentry, hfaithful.path, ?_, ?_⟩
  · intro hlisted
    obtain ⟨v, hv, hregular, hdescribes⟩ := hfaithful.stable (by
      intro hflag
      apply hlisted
      rw [hmade.unstable]
      exact List.mem_filterMap.mpr ⟨(rel, c), hc, hflag.symm⟩)
    refine ⟨v, hv, hregular, ?_, hdescribes.chunks, ?_⟩
    · rw [hdescribes.content, chunksOf, hcdc]
    · rw [hdescribes.size, chunksOf, hcdc]
  · intro s' d root fs hlater hfile hat hskip
    obtain ⟨hsecs, hnanos⟩ := parts_of_untouched hat hskip
    have hinv' := hinv.run hlater
    have hfaithful' := hinv'.done rel c fe (Run.keeps hlater _ hc) hentry
    have hdescribes := hfaithful'.live hinv' hfile hsecs hnanos
    rw [hdescribes.content, chunksOf, hcdc]

/-- A tree whose path `a` leads to one file, or to another that was put in its
place. -/
def savedDisk (current : Bool) : Disk Bool where
  place := fun rel => if rel = [str "a"] then some current else none
  inode := fun later =>
    if later then { kind := .regular, bytes := str "three", mtime := 7, mode := 0o600 }
    else { kind := .regular, bytes := str "one", mtime := 5, mode := 0o644 }

/-- The first file is there, about to be captured. -/
def savedStart : System Bool where
  disk := savedDisk false
  before := []
  phase := .walking
  done := []

/-- The content of the second file under the metadata of the first. -/
def savedEntry : FileEntry :=
  { smallEntry (str "a") (str "three") with mtimeNanos := 5 }

/-- The second file is there, and captured. -/
def savedEnd : System Bool where
  disk := savedDisk true
  before := [savedDisk false]
  phase := .walking
  done := [([str "a"], ⟨some savedEntry, none⟩)]

/-- The versions have the times at which they were saved. -/
theorem savedDisk_times (current : Bool) {rel : Path} {v : Version Bool}
    (hv : (savedDisk current).version rel = some v) : v.mtime = if current then 7 else 5 := by
  unfold Disk.version at hv
  obtain ⟨i, hi, rfl⟩ := Option.map_eq_some_iff.mp hv
  have heq : i = current := by
    unfold savedDisk at hi
    simp only at hi
    split at hi
    · exact (Option.some.inj hi).symm
    · cases hi
  subst heq
  cases i <;> rfl

/-- The first file was read, and then replaced. -/
def savedReplaced : System Bool where
  disk := savedDisk true
  before := [savedDisk false]
  phase := .comparing ⟨[str "a"], (savedDisk false).inode false, QUIESCE_RETRIES⟩
    (stampOf ((savedDisk false).inode false)) (str "one")
  done := []

/-- The path is to be read once more. -/
def savedMidway : System Bool where
  disk := savedDisk true
  before := [savedDisk false]
  phase := .stamping ⟨[str "a"], (savedDisk false).inode false, 2⟩
  done := []

/-- The capture is under way when the file is saved again. -/
theorem savedMidway_run : Run (smallCrates [] [] []) [] [] savedStart savedMidway := by
  have hkept : Kept [] [] [str "a"] := ⟨by decide, by decide, by decide, _, rfl⟩
  have hfound : Run (smallCrates [] [] []) [] [] savedStart (savedStart.at
      (.stamping ⟨[str "a"], (savedDisk false).inode false, QUIESCE_RETRIES⟩)) :=
    .single (.metadata rfl hkept (by rfl))
  have hread := hfound.trans (reads_run (i := false) rfl rfl rfl rfl)
  have hwrite := hread.tail (.others (savedDisk true) ?_ ?_)
  · have hchanged : stampOf ((savedDisk false).inode false) ≠
        stampOf ((savedDisk true).inode true) := by decide
    have hretry : Step (smallCrates [] [] []) [] [] savedReplaced _ :=
      .retry (n := 2) rfl rfl hchanged rfl
    exact hwrite.tail hretry
  · intro rel
    refine Or.inr (Or.inr ?_)
    intro v u hv hu heq
    have hold : (savedDisk false).version rel = some u := (List.mem_singleton.mp hu).symm
    rw [savedDisk_times true hv, savedDisk_times false hold] at heq
    exact absurd heq (by decide)
  · intro rel v hv
    rw [savedDisk_times true hv]
    exact (⟨by decide, by decide⟩ : Representable 7)

theorem savedEnd_run : Run (smallCrates [] [] []) [] [] savedStart savedEnd :=
  savedMidway_run.trans (settles_run (s := savedMidway)
    (a := ⟨[str "a"], (savedDisk false).inode false, 2⟩) (i := true) rfl rfl rfl rfl)

/-- A file that is replaced while it is captured. -/
theorem capture_race_safe_saved :
    ∃ rel c, (rel, c) ∈ savedEnd.done ∧ c.entry = some savedEntry ∧
      RaceSafe (smallCrates [] [] []) [] [] savedEnd (smallManifest none none [savedEntry]) rel
        savedEntry := by
  refine capture_race_safe (smallCrates [] [] []) [] [] (Revert.flatten_small _ _ _) savedStart
    savedEnd (smallManifest none none [savedEntry]) ⟨rfl, rfl, rfl, ?_⟩ savedEnd_run ⟨rfl, rfl⟩
    savedEntry (List.mem_singleton.mpr rfl)
  intro rel v hv
  rw [savedDisk_times false hv]
  exact (⟨by decide, by decide⟩ : Representable 5)

end Quiescence

end Respawn
