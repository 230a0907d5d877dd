/-!
# First occurrences in a list

Dropping repetitions keeps the first occurrence of every item.  Items can be numbered that way as
they come: an item that occurred before keeps its number, and a new one gets the next.
-/

namespace RegexScan

section

variable {α : Type} [BEq α] [LawfulBEq α] {as : List α} {a : α}

theorem eraseDups_concat_of_mem (h : a ∈ as) : (as ++ [a]).eraseDups = as.eraseDups := by
  simp [List.eraseDups_append, List.removeAll, h]

theorem eraseDups_concat_of_not_mem (h : a ∉ as) :
    (as ++ [a]).eraseDups = as.eraseDups ++ [a] := by
  simp [List.eraseDups_append, List.eraseDups_cons, List.removeAll, h]

/-- The first occurrences of a list stay in place when more elements follow. -/
theorem eraseDups_prefix_append (as bs : List α) : as.eraseDups <+: (as ++ bs).eraseDups := by
  rw [List.eraseDups_append]
  exact List.prefix_append _ _

end

/-- The first occurrences in a list are the numbers below `n` in their order. -/
def Numbers (n : Nat) (xs : List Nat) : Prop := xs.eraseDups = List.range n

namespace Numbers

variable {n i : Nat} {xs ys : List Nat}

/-- The numbers handed out so far are those below `n`. -/
theorem mem_iff (h : Numbers n xs) : i ∈ xs ↔ i < n := by
  rw [← List.mem_eraseDups, h, List.mem_range]

theorem concat_of_lt (h : Numbers n xs) (hi : i < n) : Numbers n (xs ++ [i]) :=
  (eraseDups_concat_of_mem (h.mem_iff.mpr hi)).trans h

/-- The next number is `n` itself. -/
theorem concat_self (h : Numbers n xs) : Numbers (n + 1) (xs ++ [n]) := by
  have hnew : n ∉ xs := fun hn ↦ Nat.lt_irrefl n (h.mem_iff.mp hn)
  rw [Numbers, eraseDups_concat_of_not_mem hnew, h, List.range_succ]

/-- Behind a zero the other numbers occur in their order. -/
theorem eraseDups_filter_ne_zero (h : Numbers n (0 :: xs)) :
    (xs.filter (· ≠ 0)).eraseDups = List.range' 1 (n - 1) := by
  obtain ⟨m, rfl⟩ := Nat.exists_eq_succ_of_ne_zero (Nat.ne_of_gt (h.mem_iff.mp List.mem_cons_self))
  rw [Numbers, List.eraseDups_cons, List.range_eq_range', List.range'_succ] at h
  have hfilter : xs.filter (· ≠ 0) = xs.filter (!· == 0) :=
    List.filter_congr fun x _ ↦ Bool.eq_iff_iff.mpr (by simp)
  rw [hfilter]
  exact (List.cons.inj h).2

/-- What comes first is numbered as well, without gaps. -/
theorem exists_of_append (h : Numbers n (xs ++ ys)) : ∃ m, Numbers m xs := by
  have hprefix : xs.eraseDups <+: List.range n := h ▸ eraseDups_prefix_append xs ys
  exact ⟨_, (List.prefix_iff_eq_take.mp hprefix).trans List.take_range⟩

end Numbers

end RegexScan
