import Mathlib.Data.List.Sort
import RegexScan.Dfa.Determinize

/-!
# The name of a set of states tells its members

No decimal is empty and none holds a dot, so the decimals between the dots of a name can be read
back, and each of them stands for one number.
-/

namespace RegexScan

/-- No digit is a dot. -/
theorem dot_not_mem_repr (n : Nat) : '.' ∉ (Nat.repr n).toList := by
  intro h
  rw [Nat.toList_repr] at h
  have hdigit := Nat.isDigit_of_mem_toDigits (by decide) (by decide) h
  cases hdigit

theorem repr_toList_injective : Function.Injective fun n ↦ (Nat.repr n).toList := by
  intro m n h
  simp only [Nat.toList_repr] at h
  rw [← Nat.ofDigitChars_ten_toDigits (n := m), h, Nat.ofDigitChars_ten_toDigits]

namespace Nfa

variable {xs ys : List Nat}

theorem setId_eq_nil_iff : setId xs = [] ↔ Ascending.ofList xs = [] := by
  rw [setId]
  cases Ascending.ofList xs with
  | nil => simp
  | cons x xs => cases xs <;> simp

/-- The text of a set falls at its dots into the members, written in decimal. -/
theorem splitOn_setId (h : Ascending.ofList xs ≠ []) :
    (setId xs).splitOn '.' = (Ascending.ofList xs).map fun s ↦ (Nat.repr s).toList := by
  apply List.splitOn_intercalate
  · rintro part hpart
    obtain ⟨s, -, rfl⟩ := List.mem_map.mp hpart
    exact dot_not_mem_repr s
  · rwa [Ne, List.map_eq_nil_iff]

/-- Texts determine the sorted lists that they are written from. -/
theorem ofList_eq_of_setId_eq (h : setId xs = setId ys) :
    Ascending.ofList xs = Ascending.ofList ys := by
  by_cases hxs : Ascending.ofList xs = []
  · rw [hxs, setId_eq_nil_iff.mp (h ▸ setId_eq_nil_iff.mpr hxs)]
  · have hys : Ascending.ofList ys ≠ [] := fun hys ↦
      hxs (setId_eq_nil_iff.mp (h.trans (setId_eq_nil_iff.mpr hys)))
    apply List.map_injective_iff.mpr repr_toList_injective
    rw [← splitOn_setId hxs, ← splitOn_setId hys, h]

theorem ofList_eq_ofList_iff :
    Ascending.ofList xs = Ascending.ofList ys ↔ ∀ s, s ∈ xs ↔ s ∈ ys := by
  constructor
  · intro h s
    rw [← Ascending.mem_ofList, h, Ascending.mem_ofList]
  · intro h
    refine (Ascending.pairwise_ofList xs).eq_of_mem_iff (Ascending.pairwise_ofList ys) fun s ↦ ?_
    rw [Ascending.mem_ofList, Ascending.mem_ofList, h]

/-- Ascending lists of states with the same name are the same. -/
theorem eq_of_setId_eq (hxs : xs.Pairwise (· < ·)) (hys : ys.Pairwise (· < ·))
    (h : setId xs = setId ys) : xs = ys :=
  hxs.eq_of_mem_iff hys (ofList_eq_ofList_iff.mp (ofList_eq_of_setId_eq h))

/-- Lists of states have the same name if and only if they have the same members, in whatever order
and however often. -/
theorem setId_eq_setId_iff (xs ys : List Nat) :
    setId xs = setId ys ↔ ∀ s, s ∈ xs ↔ s ∈ ys := by
  rw [← ofList_eq_ofList_iff]
  constructor
  · exact ofList_eq_of_setId_eq
  · intro h
    rw [setId, h, setId]

/-- Closures with the same name are closures of the same states. -/
theorem Closure.id_eq_id_iff {α : Type} {k l : Closure α} :
    k.id = l.id ↔ k.members = l.members := by
  rw [k.id_eq, l.id_eq]
  exact ⟨eq_of_setId_eq k.ascending l.ascending, congrArg setId⟩

end Nfa

end RegexScan
