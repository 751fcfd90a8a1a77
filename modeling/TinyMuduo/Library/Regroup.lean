import Mathlib.Data.List.Basic
import Mathlib.Data.List.Flatten

/-!
# Regrouping a sequence of pieces

A sequence of pieces is passed on in chunks, each of which is the concatenation of some consecutive
pieces: no piece is cut, lost or moved. Stages that regroup one after the other regroup in the end.

## Main definitions

* `Regroups`: the chunks are runs of the pieces.

## Main results

* `Regroups.extend`, `Regroups.append`: a piece joins the last chunk, and two sequences.
* `Regroups.trans`: two stages.
-/

variable {α : Type*}

/-- Every chunk is the concatenation of consecutive pieces, and every piece is in one chunk. -/
def Regroups (chunks pieces : List (List α)) : Prop :=
  ∃ groups : List (List (List α)), groups.map List.flatten = chunks ∧ groups.flatten = pieces

namespace Regroups

variable {chunks chunks' middle pieces pieces' : List (List α)}

theorem nil : Regroups ([] : List (List α)) [] := ⟨[], rfl, rfl⟩

theorem eq_nil (h : Regroups [] pieces) : pieces = [] := by
  obtain ⟨groups, hgroups, rfl⟩ := h
  rw [List.map_eq_nil_iff.mp hgroups, List.flatten_nil]

/-- All pieces in one chunk. -/
theorem single (pieces : List (List α)) : Regroups [pieces.flatten] pieces :=
  ⟨[pieces], rfl, by simp⟩

theorem append (h : Regroups chunks pieces) (h' : Regroups chunks' pieces') :
    Regroups (chunks ++ chunks') (pieces ++ pieces') := by
  obtain ⟨groups, rfl, rfl⟩ := h
  obtain ⟨groups', rfl, rfl⟩ := h'
  exact ⟨groups ++ groups', List.map_append, List.flatten_append⟩

/-- The bytes are the same. -/
theorem flatten_eq (h : Regroups chunks pieces) : chunks.flatten = pieces.flatten := by
  obtain ⟨groups, rfl, rfl⟩ := h
  exact List.flatten_flatten.symm

/-- A piece joins the last chunk. -/
theorem extend {last : List α} (h : Regroups (chunks ++ [last]) pieces) (piece : List α) :
    Regroups (chunks ++ [last ++ piece]) (pieces ++ [piece]) := by
  obtain ⟨groups, hgroups, rfl⟩ := h
  obtain ⟨front, back, rfl, rfl, hback⟩ := List.map_eq_append_iff.mp hgroups
  obtain ⟨group, rfl, rfl⟩ := List.map_eq_singleton_iff.mp hback
  exact ⟨front ++ [group ++ [piece]], by simp, by simp⟩

/-- The first chunks hold the first pieces. -/
theorem split (h : Regroups (chunks ++ chunks') pieces) :
    ∃ front back, pieces = front ++ back ∧ Regroups chunks front ∧ Regroups chunks' back := by
  obtain ⟨groups, hgroups, rfl⟩ := h
  obtain ⟨front, back, rfl, hfront, hback⟩ := List.map_eq_append_iff.mp hgroups
  exact ⟨front.flatten, back.flatten, List.flatten_append, ⟨front, hfront, rfl⟩, ⟨back, hback, rfl⟩⟩

/-- Chunks that are regrouped once more. -/
theorem trans (h : Regroups chunks middle) (h' : Regroups middle pieces) :
    Regroups chunks pieces := by
  obtain ⟨groups, rfl, rfl⟩ := h
  induction groups generalizing pieces with
  | nil => exact h'
  | cons group groups ih =>
    obtain ⟨front, back, rfl, hfront, hback⟩ := split h'
    have hgroup : Regroups [group.flatten] front := hfront.flatten_eq ▸ single front
    exact hgroup.append (ih hback)

end Regroups
