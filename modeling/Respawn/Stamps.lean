import Mathlib.Data.List.Basic

/-!
# Cells that show a stamp

Other parties change a cell that holds a value or nothing, and every value
shows a stamp.  A history lists what the cell has held, the latest first.  Some
values are `free` of any rule; once the cell has held another one, each change
must show a stamp that the cell never showed before (`Fresh`).  A stamp that is
lost then stays lost, so whoever sees one stamp twice knows that nothing
changed in between: `Holds.eq`.
-/

namespace Stamps

variable {V τ : Type} (stamp : V → τ) (free : V → Prop)

/-- The cell has held only free values. -/
def Idle (history : List (Option V)) : Prop := ∀ v, some v ∈ history → free v

/-- What the cell holds next is as free as all before, is what it held, or shows
a new stamp. -/
def Fresh (next : Option V) (history : List (Option V)) : Prop :=
  Idle free (next :: history) ∨ history.head? = some next ∨
    ∀ v u, next = some v → some u ∈ history → stamp u ≠ stamp v

/-- The cell showed `t` and shows it no more, but as a free value. -/
def Lost (t : τ) (history : List (Option V)) : Prop :=
  (∃ v, some v ∈ history ∧ stamp v = t) ∧
    ∀ u, history.head? = some (some u) → stamp u ≠ t ∨ Idle free history

/-- The cell still holds `v`, or the stamp of `v` is lost. -/
def Holds (v : V) (history : List (Option V)) : Prop :=
  history.head? = some (some v) ∨ Lost stamp free (stamp v) history

variable {stamp free} {t : τ} {u v : V} {next : Option V} {history : List (Option V)}

/-- What the cell holds has been held. -/
theorem mem_of_head (h : history.head? = some next) : next ∈ history :=
  List.mem_of_mem_head? (h ▸ rfl)

/-- Nothing that was held before changes what is free. -/
theorem Idle.of_mem (h : Idle free history) (hnext : next ∈ history) :
    Idle free (next :: history) := by
  intro v hv
  rcases List.mem_cons.mp hv with heq | hmem
  · exact h v (heq ▸ hnext)
  · exact h v hmem

theorem Idle.tail (h : Idle free (next :: history)) : Idle free history :=
  fun v hv => h v (List.mem_cons_of_mem _ hv)

/-- A stamp that is lost stays lost. -/
theorem Lost.cons (h : Lost stamp free t history) (hfresh : Fresh stamp free next history) :
    Lost stamp free t (next :: history) := by
  obtain ⟨⟨v, hv, hstamp⟩, hhead⟩ := h
  refine ⟨⟨v, List.mem_cons_of_mem _ hv, hstamp⟩, ?_⟩
  intro u hu
  have hnext : next = some u := Option.some.inj hu
  rcases hfresh with hidle | hsame | hnew
  · exact Or.inr hidle
  · exact (hhead u (hsame.trans (congrArg some hnext))).imp_right
      fun hidle => hidle.of_mem (mem_of_head hsame)
  · left
    rw [← hstamp]
    exact (hnew u v hnext hv).symm

/-- What is held stays, or its stamp is lost from then on. -/
theorem Holds.cons (h : Holds stamp free v history) (hfresh : Fresh stamp free next history) :
    Holds stamp free v (next :: history) := by
  rcases h with hhead | hlost
  · have hmem := mem_of_head hhead
    rcases hfresh with hidle | hsame | hnew
    · exact Or.inr ⟨⟨v, List.mem_cons_of_mem _ hmem, rfl⟩, fun _ _ => Or.inr hidle⟩
    · left
      rw [hhead] at hsame
      exact congrArg some (Option.some.inj hsame).symm
    · refine Or.inr ⟨⟨v, List.mem_cons_of_mem _ hmem, rfl⟩, ?_⟩
      intro u hu
      exact Or.inl (hnew u v (Option.some.inj hu) hmem).symm
  · exact Or.inr (hlost.cons hfresh)

/-- A stamp that the cell shows is not lost, once a value was not free. -/
theorem not_lost (h : history.head? = some (some v)) (hidle : ¬ Idle free history) :
    ¬ Lost stamp free (stamp v) history := by
  intro hlost
  rcases hlost.2 v h with hne | hidle'
  · exact hne rfl
  · exact hidle hidle'

/-- **One stamp, one value.**  The cell still holds the value seen if it shows
the stamp that the value showed. -/
theorem Holds.eq (h : Holds stamp free v history) (hhead : history.head? = some (some u))
    (hidle : ¬ Idle free history) (hstamp : stamp u = stamp v) : u = v := by
  have hnow := h.resolve_right (hstamp ▸ not_lost hhead hidle)
  rw [hhead] at hnow
  exact Option.some.inj (Option.some.inj hnow)

end Stamps
