import Respawn.Spelling

/-!
# Which paths have one spelling

`sanitizeRel` looks at the components of a path, and the component iterator
passes over empty pieces and over every `.` but a leading one.  So a path may be
accepted with separators repeated or trailing, or with a `.` between them, and
the strings that are compared later (tombstones, the wanted set, the entries
that a purge matches) are then not the path's only spelling.

* `canonical_iff_spelledOnce` — an accepted string is its components joined
  exactly if it has nothing of that kind;
* `sanitizeRel_identity` — among such strings equality is identity of paths, and
  every other accepted string names a path that such a string names too.
-/

namespace Respawn

open ByteStr FileTree StateLogic

/-- No separator follows another or ends the text, and no piece after a
separator is a `.`. -/
def SpelledOnce (p : Bytes) : Prop :=
  ¬ [slash, slash] <:+: p ∧ ¬ [slash] <:+ p ∧
    ¬ [slash, 46, slash] <:+: p ∧ ¬ [slash, 46] <:+ p

instance (p : Bytes) : Decidable (SpelledOnce p) := by
  unfold SpelledOnce; infer_instance

/-! ## Pieces -/

/-- Cutting at a separator in the middle. -/
theorem splitOn_middle (a b : Bytes) :
    (a ++ slash :: b).splitOn slash = a.splitOn slash ++ b.splitOn slash :=
  List.splitOn_append_cons_self a b

theorem dot_splitOn : [46].splitOn slash = [dot] := rfl

/-- A text with a bad spot has a bad piece. -/
theorem spelledOnce_of_pieces {p : Bytes} (h : ∀ n ∈ p.splitOn slash, n ≠ [] ∧ n ≠ dot) :
    SpelledOnce p := by
  refine ⟨?_, ?_, ?_, ?_⟩
  · rintro ⟨a, b, rfl⟩
    refine (h [] ?_).1 rfl
    have hcut : (a ++ [slash, slash] ++ b).splitOn slash =
        a.splitOn slash ++ ([] ++ slash :: b).splitOn slash := by
      rw [← splitOn_middle]
      simp
    rw [hcut, splitOn_middle]
    simp
  · rintro ⟨a, rfl⟩
    refine (h [] ?_).1 rfl
    rw [splitOn_middle]
    simp
  · rintro ⟨a, b, rfl⟩
    refine (h dot ?_).2 rfl
    have hcut : (a ++ [slash, 46, slash] ++ b).splitOn slash =
        a.splitOn slash ++ ([46] ++ slash :: b).splitOn slash := by
      rw [← splitOn_middle]
      simp
    rw [hcut, splitOn_middle, dot_splitOn]
    simp
  · rintro ⟨a, rfl⟩
    refine (h dot ?_).2 rfl
    rw [splitOn_middle, dot_splitOn]
    simp

/-- Joining two lists of names is joining their spellings. -/
theorem joinSlash_append {a b : List Bytes} (ha : a ≠ []) (hb : b ≠ []) :
    joinSlash (a ++ b) = joinSlash a ++ slash :: joinSlash b := by
  induction a with
  | nil => exact absurd rfl ha
  | cons n rest ih =>
      cases rest with
      | nil =>
          obtain ⟨k, more, rfl⟩ := List.exists_cons_of_ne_nil hb
          rw [List.singleton_append, joinSlash_cons_cons]
          simp [joinSlash]
      | cons k more =>
          have hrest := ih (List.cons_ne_nil k more)
          rw [List.cons_append, List.cons_append, joinSlash_cons_cons, ← List.cons_append, hrest,
            joinSlash_cons_cons, List.append_assoc, List.cons_append]

/-- A piece that is not the first one stands after a separator, at the end of the
text or before another separator. -/
theorem piece_spot {p n : Bytes} (hn : n ∈ p.splitOn slash)
    (hlater : (p.splitOn slash).head? ≠ some n) :
    slash :: n <:+ p ∨ slash :: n ++ [slash] <:+: p := by
  obtain ⟨before, after, hpieces⟩ := List.append_of_mem hn
  have hbefore : before ≠ [] := by
    rintro rfl
    rw [hpieces] at hlater
    exact hlater rfl
  have htext : p = joinSlash before ++ slash :: joinSlash (n :: after) := by
    rw [← joinSlash_append hbefore (List.cons_ne_nil n after), ← hpieces]
    exact (List.intercalate_splitOn slash).symm
  cases after with
  | nil =>
      left
      exact ⟨joinSlash before, by rw [htext]; simp [joinSlash]⟩
  | cons k more =>
      right
      refine ⟨joinSlash before, joinSlash (k :: more), ?_⟩
      rw [htext, joinSlash_cons_cons]
      simp

/-- A bad piece that is not the first one is a bad spot. -/
theorem pieces_of_spelledOnce {p : Bytes} (h : SpelledOnce p)
    (hfirst : ∀ n, (p.splitOn slash).head? = some n → n ≠ [] ∧ n ≠ dot) :
    ∀ n ∈ p.splitOn slash, n ≠ [] ∧ n ≠ dot := by
  obtain ⟨hdouble, hlast, hdotted, hdotLast⟩ := h
  intro n hn
  by_cases hhead : (p.splitOn slash).head? = some n
  · exact hfirst n hhead
  · constructor
    · rintro rfl
      obtain hspot | hspot := piece_spot hn hhead
      · exact hlast hspot
      · exact hdouble hspot
    · rintro rfl
      obtain hspot | hspot := piece_spot hn hhead
      · exact hdotLast hspot
      · exact hdotted hspot

/-! ## Accepted strings -/

/-- What is accepted. -/
theorem sanitizeRel_ok_iff {p : Bytes} : (∃ rel, sanitizeRel p = .ok rel) ↔
    (p ≠ [] ∧ p.length ≤ 1024 ∧ 0 ∉ p ∧ backslash ∉ p) ∧ p.head? ≠ some slash ∧
      ∀ c ∈ components p, c.isNormal = true := by
  unfold sanitizeRel
  constructor
  · rintro ⟨rel, h⟩
    split_ifs at h with hshape hroot hnormal
    obtain ⟨hne, hlen, hzero, hback⟩ : p ≠ [] ∧ ¬ p.length > 1024 ∧ 0 ∉ p ∧ backslash ∉ p := by
      simpa only [not_or] using hshape
    exact ⟨⟨hne, Nat.le_of_not_gt hlen, hzero, hback⟩, hroot, hnormal⟩
  · rintro ⟨⟨hne, hlen, hzero, hback⟩, hroot, hnormal⟩
    have hshape : ¬ (p = [] ∨ p.length > 1024 ∨ 0 ∈ p ∨ backslash ∈ p) := by
      simp only [not_or]
      exact ⟨hne, Nat.not_lt_of_le hlen, hzero, hback⟩
    rw [dif_neg hshape, if_neg hroot, dif_pos hnormal]
    exact ⟨_, rfl⟩

/-- A text that does not begin with a separator begins with a name. -/
theorem head_splitOn_ne_nil {p : Bytes} (hne : p ≠ []) (hroot : p.head? ≠ some slash) :
    (p.splitOn slash).head? ≠ some [] := by
  obtain ⟨b, rest, rfl⟩ := List.exists_cons_of_ne_nil hne
  have hb : (b == slash) = false := by simpa using hroot
  obtain ⟨first, more, hsplit⟩ := List.exists_cons_of_ne_nil (List.splitOn_ne_nil slash rest)
  rw [List.splitOn_cons_eq_if_modifyHead, hb, hsplit]
  simp

/-- What an accepted string begins with. -/
theorem head_of_sanitizeRel {p : Bytes} {rel : RelPath} (h : sanitizeRel p = .ok rel) :
    ∀ n, (p.splitOn slash).head? = some n → n ≠ [] ∧ n ≠ dot := by
  obtain ⟨⟨hne, -⟩, hroot, hnormal⟩ := sanitizeRel_ok_iff.mp ⟨rel, h⟩
  intro n hn
  constructor
  · rintro rfl
    exact head_splitOn_ne_nil hne hroot hn
  · rintro rfl
    have hdot : Component.curDir ∈ components p := by
      simp [components, hroot, hn]
    exact absurd (hnormal _ hdot) (by decide)

/-- The name that a component carries. -/
def componentName : Component → Option Name
  | .normal n => some n
  | _ => none

/-- The normal names of a string are those of its components. -/
theorem normalNames_eq (p : Bytes) : normalNames p = (components p).filterMap componentName := by
  unfold normalNames
  apply List.filterMap_congr
  intro c _
  cases c <;> rfl

/-- The names of a text are its pieces without the empty ones and the dots. -/
theorem normalNames_eq_filter (p : Bytes) : normalNames p =
    (p.splitOn slash).filter fun n => decide (pieceComponent n = some (.normal n)) := by
  have hfront : List.filterMap componentName (if p.head? = some slash then [.rootDir]
      else if (p.splitOn slash).head? = some dot then [.curDir] else []) = [] := by
    split
    · rfl
    · split <;> rfl
  rw [normalNames_eq, components, List.filterMap_append, List.filterMap_filterMap, hfront,
    List.nil_append, ← List.filterMap_eq_filter]
  apply List.filterMap_congr
  intro n _
  by_cases hskip : n = [] ∨ n = dot
  · obtain rfl | rfl := hskip <;> rfl
  · by_cases hup : n = dotdot
    · subst hup
      rfl
    · obtain ⟨hempty, hdot⟩ := not_or.mp hskip
      simp [pieceComponent, hempty, hdot, hup, componentName, Option.guard]

/-- The pieces of an accepted string without bad spots are its components. -/
theorem comps_of_pieces {p : Bytes} {rel : RelPath} (h : sanitizeRel p = .ok rel)
    (hpieces : ∀ n ∈ p.splitOn slash, n ≠ [] ∧ n ≠ dot) : p = joinSlash rel.comps := by
  obtain ⟨-, -, hnormal⟩ := sanitizeRel_ok_iff.mp ⟨rel, h⟩
  have hall : normalNames p = p.splitOn slash := by
    rw [normalNames_eq_filter, List.filter_eq_self]
    intro n hn
    obtain ⟨hempty, hdot⟩ := hpieces n hn
    have hup : n ≠ dotdot := by
      rintro rfl
      have hmem : Component.parentDir ∈ components p :=
        List.mem_append_right _ (List.mem_filterMap.mpr ⟨_, hn, rfl⟩)
      exact absurd (hnormal _ hmem) (by decide)
    simp [pieceComponent, hempty, hdot, hup]
  rw [Revert.comps_eq_normalNames h, hall]
  exact (List.intercalate_splitOn slash).symm

/-- **The canonical strings.**  A string that is accepted is its components
joined by single separators exactly if it has no repeated and no trailing
separator and no `.` after a separator. -/
theorem canonical_iff_spelledOnce {p : Bytes} {rel : RelPath} (h : sanitizeRel p = .ok rel) :
    p = joinSlash rel.comps ↔ SpelledOnce p := by
  constructor
  · intro heq
    apply spelledOnce_of_pieces
    have hsplit : p.splitOn slash = rel.comps := by
      rw [heq]
      exact splitOn_joinSlash rel.nonempty fun n hn => (rel.valid n hn).2.2.2.1
    rw [hsplit]
    exact fun n hn => ⟨(rel.valid n hn).1, (rel.valid n hn).2.1⟩
  · intro honce
    exact comps_of_pieces h (pieces_of_spelledOnce honce (head_of_sanitizeRel h))

/-- The length of a path, with one separator more than it has. -/
theorem length_joinSlash {names : List Bytes} (h : names ≠ []) :
    (joinSlash names).length + 1 = (names.map fun n => n.length + 1).sum := by
  induction names with
  | nil => exact absurd rfl h
  | cons n rest ih =>
      cases rest with
      | nil => simp [joinSlash]
      | cons k more =>
          have hrest := ih (List.cons_ne_nil k more)
          rw [List.map_cons, List.sum_cons, ← hrest, joinSlash_cons_cons, List.length_append,
            List.length_cons]
          omega

/-- A part of a path's names spells no longer text. -/
theorem joinSlash_length_le {a b : List Bytes} (hne : a ≠ []) (h : a.Sublist b) :
    (joinSlash a).length ≤ (joinSlash b).length := by
  have hb : b ≠ [] := fun hnil => hne (List.sublist_nil.mp (hnil ▸ h))
  have hsum : (a.map fun n => n.length + 1).sum ≤ (b.map fun n => n.length + 1).sum := by
    clear hne hb
    induction h with
    | slnil => exact Nat.le_refl _
    | cons n _ ih =>
        rw [List.map_cons, List.sum_cons]
        omega
    | cons_cons n _ ih =>
        rw [List.map_cons, List.map_cons, List.sum_cons, List.sum_cons]
        omega
  rw [← length_joinSlash hne, ← length_joinSlash hb] at hsum
  omega

/-- Proper names that are joined are the components of the text. -/
theorem components_joinSlash {names : List Name} (hne : names ≠ [])
    (hvalid : ∀ n ∈ names, ValidName n) :
    (joinSlash names).head? ≠ some slash ∧ components (joinSlash names) = names.map .normal := by
  have hsplit : (joinSlash names).splitOn slash = names :=
    splitOn_joinSlash hne fun n hn => (hvalid n hn).2.2.2.1
  obtain ⟨first, more, rfl⟩ := List.exists_cons_of_ne_nil hne
  obtain ⟨hempty, hdot, -, hslash, -⟩ := hvalid first List.mem_cons_self
  have hroot : (joinSlash (first :: more)).head? ≠ some slash := by
    intro hhead
    obtain ⟨b, rest, rfl⟩ := List.exists_cons_of_ne_nil hempty
    have hb : b = slash := by
      cases more <;> simpa [joinSlash] using hhead
    exact hslash (hb ▸ List.mem_cons_self)
  refine ⟨hroot, ?_⟩
  have hpieces : (first :: more).filterMap pieceComponent = (first :: more).map .normal := by
    rw [← List.filterMap_eq_map]
    apply List.filterMap_congr
    intro n hn
    obtain ⟨hn₁, hn₂, hn₃, -⟩ := hvalid n hn
    simp [pieceComponent, hn₁, hn₂, hn₃]
  unfold components
  simp only [hsplit, if_neg hroot, List.head?_cons, Option.some.injEq, if_neg hdot,
    List.nil_append, hpieces]

/-- The components of an accepted string, joined, are accepted as well. -/
theorem sanitizeRel_canonical {p : Bytes} {rel : RelPath} (h : sanitizeRel p = .ok rel) :
    ∃ rel', sanitizeRel (joinSlash rel.comps) = .ok rel' ∧ rel'.comps = rel.comps := by
  obtain ⟨⟨hne, hlen, hzero, hback⟩, -, -⟩ := sanitizeRel_ok_iff.mp ⟨rel, h⟩
  obtain ⟨hroot, hcomps⟩ := components_joinSlash rel.nonempty rel.valid
  have hsub : rel.comps.Sublist (p.splitOn slash) := by
    rw [Revert.comps_eq_normalNames h, normalNames_eq_filter]
    exact List.filter_sublist
  have htext : joinSlash (p.splitOn slash) = p := List.intercalate_splitOn slash
  have hbyte {b : UInt8} (hb : b ∈ joinSlash rel.comps) : b = slash ∨ b ∈ p := by
    obtain rfl | ⟨n, hn, hmem⟩ := mem_joinSlash hb
    · exact .inl rfl
    · exact .inr (mem_splitOn (hsub.subset hn) hmem).2
  have haccepted : ∃ rel', sanitizeRel (joinSlash rel.comps) = .ok rel' := by
    apply sanitizeRel_ok_iff.mpr
    refine ⟨⟨?_, ?_, ?_, ?_⟩, hroot, ?_⟩
    · intro hnil
      have hlength := length_joinSlash rel.nonempty
      obtain ⟨first, more, hfirst⟩ := List.exists_cons_of_ne_nil rel.nonempty
      have hname := (rel.valid first (hfirst ▸ List.mem_cons_self)).1
      rw [hnil, hfirst, List.map_cons, List.sum_cons, List.length_nil] at hlength
      exact hname (List.length_eq_zero_iff.mp (by omega))
    · have hshorter := joinSlash_length_le rel.nonempty hsub
      rw [htext] at hshorter
      exact hshorter.trans hlen
    · intro hmem
      obtain heq | hin := hbyte hmem
      · exact absurd heq (by decide)
      · exact hzero hin
    · intro hmem
      obtain heq | hin := hbyte hmem
      · exact absurd heq (by decide)
      · exact hback hin
    · rw [hcomps]
      intro c hc
      obtain ⟨n, -, rfl⟩ := List.mem_map.mp hc
      rfl
  obtain ⟨rel', hrel'⟩ := haccepted
  exact ⟨rel', hrel', (sanitizeRel_joinSlash rel.nonempty rel.valid hrel').1⟩

/-- **Strings that are spelled once decide path identity**, and no others do.
For an accepted string: it is its components joined by single separators exactly
if it is spelled once; then no other string spelled once leads to the same
components, and otherwise another string does. -/
theorem sanitizeRel_identity {p : Bytes} {rel : RelPath} (h : sanitizeRel p = .ok rel) :
    (p = joinSlash rel.comps ↔ SpelledOnce p) ∧
    ((∀ q rel', sanitizeRel q = .ok rel' → SpelledOnce q → (q = p ↔ rel'.comps = rel.comps)) ↔
      SpelledOnce p) := by
  refine ⟨canonical_iff_spelledOnce h, ?_, ?_⟩
  · intro honly
    obtain ⟨rel', hrel', hcomps⟩ := sanitizeRel_canonical h
    have honce : SpelledOnce (joinSlash rel.comps) := by
      rw [← canonical_iff_spelledOnce hrel', hcomps]
    rw [← (honly _ rel' hrel' honce).mpr hcomps]
    exact honce
  · intro honce q rel' hrel' honce'
    constructor
    · rintro rfl
      exact congrArg RelPath.comps (Except.ok.inj (hrel'.symm.trans h))
    · intro hcomps
      rw [(canonical_iff_spelledOnce hrel').mpr honce', (canonical_iff_spelledOnce h).mpr honce,
        hcomps]

/-- `a//b` is accepted, is not its components joined, and names the path that
`a/b` names; so do `a/b/`, `a/./b` and `a/b/.`. -/
theorem doubled_slash_accepted :
    ¬ ∀ (p q : Bytes) (rel rel' : RelPath), sanitizeRel p = .ok rel → sanitizeRel q = .ok rel' →
      p = joinSlash rel.comps ∧ (rel.comps = rel'.comps → p = q) := by
  intro hclaim
  have hall : ∀ s ∈ [str "a/b", str "a//b", str "a/b/", str "a/./b", str "a/b/."],
      (sanitizeRel s).toOption.map RelPath.comps = some [str "a", str "b"] := by
    decide +kernel
  obtain ⟨rel, hrel, hcomps⟩ := Option.map_eq_some_iff.mp (hall (str "a//b") (by simp))
  obtain ⟨rel', hrel', hcomps'⟩ := Option.map_eq_some_iff.mp (hall (str "a/b") (by simp))
  have hsame := (hclaim _ _ rel rel' (eq_ok_of_toOption hrel) (eq_ok_of_toOption hrel')).2
    (hcomps.trans hcomps'.symm)
  exact absurd hsame (by decide)

/-- `a/b` is its components joined, and no other string spelled once leads to
them. -/
theorem sanitizeRel_identity_small : ∃ rel, sanitizeRel (str "a/b") = .ok rel ∧
    str "a/b" = joinSlash rel.comps ∧
    ∀ q rel', sanitizeRel q = .ok rel' → SpelledOnce q →
      (q = str "a/b" ↔ rel'.comps = rel.comps) := by
  have honce : SpelledOnce (str "a/b") := by decide +kernel
  obtain ⟨hjoined, honly⟩ := sanitizeRel_identity (p := str "a/b") rfl
  exact ⟨_, rfl, hjoined.mpr honce, honly.mpr honce⟩

end Respawn
