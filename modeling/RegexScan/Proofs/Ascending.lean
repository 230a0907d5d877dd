import Mathlib.Data.List.Sort
import RegexScan.Ascending

/-!
# Walking along ascending lists

Two lists are merged by comparing their first items, and one list is searched by halving it.  Both
rely on strictly ascending items.  Given those, a walk keeps exactly what is to be kept and its
result is strictly ascending again, and the search finds exactly the members.
-/

namespace RegexScan.Ascending

variable {α : Type}

section

variable [LE α] [LT α] [Std.LawfulOrderLT α]

theorem not_mem_of_forall_lt {x : α} {xs : List α} (h : ∀ y ∈ xs, x < y) : x ∉ xs :=
  fun hx ↦ Std.lt_irrefl (h x hx)

theorem not_mem_of_pairwise_cons {x : α} {xs : List α} (h : (x :: xs).Pairwise (· < ·)) :
    x ∉ xs :=
  not_mem_of_forall_lt (List.pairwise_cons.mp h).1

section

variable [Std.IsLinearOrder α]

/-- The head of an ascending list is its least member. -/
theorem head_le_of_mem {first z : α} {xs : List α} (h : xs.Pairwise (· < ·))
    (hfirst : xs.head? = some first) (hz : z ∈ xs) : first ≤ z := by
  obtain ⟨later, rfl⟩ := List.head?_eq_some_iff.mp hfirst
  rcases List.mem_cons.mp hz with rfl | hz
  · exact Std.le_refl z
  · exact Std.le_of_lt ((List.pairwise_cons.mp h).1 z hz)

/-- The last element of an ascending list is its greatest member. -/
theorem le_last_of_mem {last z : α} {xs : List α} (h : xs.Pairwise (· < ·))
    (hlast : xs.getLast? = some last) (hz : z ∈ xs) : z ≤ last := by
  obtain ⟨earlier, rfl⟩ := List.getLast?_eq_some_iff.mp hlast
  rcases List.mem_append.mp hz with hz | hz
  · exact Std.le_of_lt ((List.pairwise_append.mp h).2.2 z hz last List.mem_cons_self)
  · exact Std.le_of_eq (List.mem_singleton.mp hz)

end

variable [DecidableEq α]

/-- Ascending lists with the same members are the same. -/
theorem eq_of_contains_eq {xs ys : List α} (hx : xs.Pairwise (· < ·)) (hy : ys.Pairwise (· < ·))
    (h : ∀ z, xs.contains z = ys.contains z) : xs = ys := by
  apply hx.eq_of_mem_iff hy
  intro z
  rw [← List.contains_iff_mem, ← List.contains_iff_mem, h]

end

/-! ## Side by side -/

/-- Put an item in front if it is to be kept. -/
def consIf (kept : Bool) (x : α) (xs : List α) : List α := if kept then x :: xs else xs

section

variable {x : α} {xs ys rest : List α}

theorem pairwise_consIf [LT α] (kept : Bool) (hlt : ∀ y ∈ xs, x < y) (h : xs.Pairwise (· < ·)) :
    (consIf kept x xs).Pairwise (· < ·) := by
  cases kept with
  | false => exact h
  | true => exact .cons hlt h

variable [DecidableEq α]

theorem contains_consIf (kept : Bool) (x z : α) (xs : List α) :
    (consIf kept x xs).contains z = ((kept && z == x) || xs.contains z) := by
  cases kept with
  | false => rfl
  | true => exact List.contains_cons ..

/-- An item that is in neither rest is kept by the lists that it comes from. -/
theorem contains_consIf_rest {keeps : Bool → Bool → Bool} (hkeeps : keeps false false = false)
    (left right : Bool) (hx : x ∉ xs) (hy : x ∉ ys)
    (hrest : ∀ z, rest.contains z = keeps (xs.contains z) (ys.contains z)) (z : α) :
    (consIf (keeps left right) x rest).contains z =
      keeps ((consIf left x xs).contains z) ((consIf right x ys).contains z) := by
  rw [contains_consIf, contains_consIf, contains_consIf, hrest]
  by_cases hz : z = x
  · subst hz
    rw [List.contains_eq_mem, List.contains_eq_mem, decide_eq_false hx, decide_eq_false hy, hkeeps,
      beq_self_eq_true, Bool.and_true, Bool.and_true, Bool.and_true, Bool.or_false, Bool.or_false,
      Bool.or_false]
  · rw [beq_false_of_ne hz, Bool.and_false, Bool.and_false, Bool.and_false, Bool.false_or,
      Bool.false_or, Bool.false_or]

end

section

variable [LT α] [DecidableLT α]

/-- Walk along two lists, by their first items.  Whether an item is kept depends on whether the left
list has it and whether the right one does. -/
def walk (keeps : Bool → Bool → Bool) : List α → List α → List α
  | [], ys => if keeps false true then ys else []
  | x :: xs, [] => if keeps true false then x :: xs else []
  | x :: xs, y :: ys =>
    if x < y then consIf (keeps true false) x (walk keeps xs (y :: ys))
    else if y < x then consIf (keeps false true) y (walk keeps (x :: xs) ys)
    else consIf (keeps true true) x (walk keeps xs ys)

variable [LE α] [Std.IsLinearOrder α] [Std.LawfulOrderLT α] [DecidableEq α]

section

variable {x z : α} {xs ys : List α} {keeps : Bool → Bool → Bool}
  (hkeeps : keeps false false = false)
include hkeeps

/-- Every item is kept or not by the lists that have it. -/
theorem contains_walk (hx : xs.Pairwise (· < ·)) (hy : ys.Pairwise (· < ·)) (z : α) :
    (walk keeps xs ys).contains z = keeps (xs.contains z) (ys.contains z) := by
  fun_induction walk keeps xs ys generalizing z with
  | case1 ys hright =>
    cases hz : ys.contains z with
    | false => exact hkeeps.symm
    | true => exact hright.symm
  | case2 ys hright =>
    cases hz : ys.contains z with
    | false => exact hkeeps.symm
    | true => exact (Bool.eq_false_of_not_eq_true hright).symm
  | case3 x xs hleft =>
    cases hz : (x :: xs).contains z with
    | false => exact hkeeps.symm
    | true => exact hleft.symm
  | case4 x xs hleft =>
    cases hz : (x :: xs).contains z with
    | false => exact hkeeps.symm
    | true => exact (Bool.eq_false_of_not_eq_true hleft).symm
  | case5 x xs y ys hlt ih =>
    have hnot := not_mem_of_forall_lt (forall_lt_of_lt hlt hy)
    exact contains_consIf_rest hkeeps true false (not_mem_of_pairwise_cons hx) hnot
      (ih hx.of_cons hy) z
  | case6 x xs y ys _ hlt ih =>
    have hnot := not_mem_of_forall_lt (forall_lt_of_lt hlt hx)
    exact contains_consIf_rest hkeeps false true hnot (not_mem_of_pairwise_cons hy)
      (ih hx hy.of_cons) z
  | case7 x xs y ys hle hge ih =>
    obtain rfl := Std.le_antisymm (Std.not_lt.mp hge) (Std.not_lt.mp hle)
    exact contains_consIf_rest hkeeps true true (not_mem_of_pairwise_cons hx)
      (not_mem_of_pairwise_cons hy) (ih hx.of_cons hy.of_cons) z

/-- The walk invents nothing: what it gives is in one of its lists. -/
theorem mem_or_mem_of_mem_walk (hx : xs.Pairwise (· < ·)) (hy : ys.Pairwise (· < ·))
    (h : z ∈ walk keeps xs ys) : z ∈ xs ∨ z ∈ ys := by
  by_contra hnot
  rw [not_or, ← List.contains_iff_mem, ← List.contains_iff_mem, Bool.not_eq_true,
    Bool.not_eq_true] at hnot
  rw [← List.contains_iff_mem, contains_walk hkeeps hx hy, hnot.1, hnot.2, hkeeps] at h
  cases h

/-- Nothing in front of an item is left for the rest of a walk. -/
theorem forall_lt_walk (hx : xs.Pairwise (· < ·)) (hy : ys.Pairwise (· < ·))
    (hltx : ∀ y ∈ xs, x < y) (hlty : ∀ y ∈ ys, x < y) : ∀ z ∈ walk keeps xs ys, x < z :=
  fun z hz ↦ (mem_or_mem_of_mem_walk hkeeps hx hy hz).elim (hltx z) (hlty z)

/-- Whatever is kept, a walk keeps the order. -/
theorem pairwise_walk (hx : xs.Pairwise (· < ·)) (hy : ys.Pairwise (· < ·)) :
    (walk keeps xs ys).Pairwise (· < ·) := by
  fun_induction walk keeps xs ys with
  | case1 ys _ => exact hy
  | case2 ys _ => exact .nil
  | case3 x xs _ => exact hx
  | case4 x xs _ => exact .nil
  | case5 x xs y ys hlt ih =>
    obtain ⟨hltx, hx⟩ := List.pairwise_cons.mp hx
    exact pairwise_consIf _ (forall_lt_walk hkeeps hx hy hltx (forall_lt_of_lt hlt hy)) (ih hx hy)
  | case6 x xs y ys _ hlt ih =>
    obtain ⟨hlty, hy⟩ := List.pairwise_cons.mp hy
    exact pairwise_consIf _ (forall_lt_walk hkeeps hx hy (forall_lt_of_lt hlt hx) hlty) (ih hx hy)
  | case7 x xs y ys hle hge ih =>
    obtain rfl := Std.le_antisymm (Std.not_lt.mp hge) (Std.not_lt.mp hle)
    obtain ⟨hltx, hx⟩ := List.pairwise_cons.mp hx
    obtain ⟨hlty, hy⟩ := List.pairwise_cons.mp hy
    exact pairwise_consIf _ (forall_lt_walk hkeeps hx hy hltx hlty) (ih hx hy)

end

section

variable {xs ys : List α} (hx : xs.Pairwise (· < ·)) (hy : ys.Pairwise (· < ·))
include hx hy

/-- Keeping what either list has is the union. -/
theorem walk_or_eq_union [DecidableLE α] : walk (· || ·) xs ys = union xs ys := by
  apply eq_of_contains_eq (pairwise_walk rfl hx hy) (pairwise_union hx hy)
  intro z
  rw [contains_walk rfl hx hy, Bool.eq_iff_iff, Bool.or_eq_true, List.contains_iff_mem,
    List.contains_iff_mem, List.contains_iff_mem, mem_union]

theorem walk_and_eq_inter : walk (· && ·) xs ys = inter xs ys := by
  apply eq_of_contains_eq (pairwise_walk rfl hx hy) (pairwise_inter hx hy)
  intro z
  rw [contains_walk rfl hx hy, Bool.eq_iff_iff, Bool.and_eq_true, List.contains_iff_mem,
    List.contains_iff_mem, List.contains_iff_mem, mem_inter hx hy]

theorem walk_and_not_eq_diff : walk (fun left right ↦ left && !right) xs ys = diff xs ys := by
  apply eq_of_contains_eq (pairwise_walk rfl hx hy) (pairwise_diff hx hy)
  intro z
  rw [contains_walk rfl hx hy, Bool.eq_iff_iff, Bool.and_eq_true, Bool.not_eq_true',
    ← Bool.not_eq_true, List.contains_iff_mem, List.contains_iff_mem, List.contains_iff_mem,
    mem_diff hx hy]

end

end

/-! ## Halving -/

/-- A list cut in three at an index that it has. -/
theorem eq_take_append_cons_drop {x : α} {xs : List α} {i : Nat} (h : xs[i]? = some x) :
    xs = xs.take i ++ x :: xs.drop (i + 1) := by
  obtain ⟨hi, rfl⟩ := List.getElem?_eq_some_iff.mp h
  rw [List.getElem_cons_drop, List.take_append_drop]

variable [LT α] [DecidableLT α]

/-- Search an item by comparing it with the one in the middle. -/
def bisect (z : α) (xs : List α) : Bool :=
  match h : xs[xs.length / 2]? with
  | none => false
  | some x =>
    if z < x then bisect z (xs.take (xs.length / 2))
    else if x < z then bisect z (xs.drop (xs.length / 2 + 1))
    else true
termination_by xs.length
decreasing_by
  all_goals
    obtain ⟨hlt, -⟩ := List.getElem?_eq_some_iff.mp h
    simp only [List.length_take, List.length_drop]
    omega

variable [LE α] [Std.IsLinearOrder α] [Std.LawfulOrderLT α]

/-- The half that is not searched does not have the item. -/
theorem bisect_iff_mem {z : α} {xs : List α} (h : xs.Pairwise (· < ·)) :
    bisect z xs = true ↔ z ∈ xs := by
  fun_induction bisect z xs with
  | case1 xs hnone =>
    have hle := List.getElem?_eq_none_iff.mp hnone
    obtain rfl : xs = [] := List.length_eq_zero_iff.mp (by omega)
    exact iff_of_false Bool.false_ne_true List.not_mem_nil
  | case2 xs x hx hlt ih =>
    have hxs := eq_take_append_cons_drop hx
    rw [hxs, List.pairwise_append] at h
    have hnot := not_mem_of_forall_lt (forall_lt_of_lt hlt h.2.1)
    rw [ih h.1]
    refine ⟨List.mem_of_mem_take, fun hz ↦ ?_⟩
    rw [hxs, List.mem_append] at hz
    exact hz.resolve_right hnot
  | case3 xs x hx _ hlt ih =>
    have hxs := eq_take_append_cons_drop hx
    rw [hxs, List.pairwise_append, List.pairwise_cons] at h
    obtain ⟨-, ⟨-, hdrop⟩, htake⟩ := h
    rw [ih hdrop]
    refine ⟨List.mem_of_mem_drop, fun hz ↦ ?_⟩
    rw [hxs, List.mem_append, List.mem_cons] at hz
    rcases hz with hz | rfl | hz
    · exact absurd (Std.lt_trans hlt (htake z hz x List.mem_cons_self)) Std.lt_irrefl
    · exact absurd hlt Std.lt_irrefl
    · exact hz
  | case4 xs x hx hle hge =>
    obtain rfl := Std.le_antisymm (Std.not_lt.mp hge) (Std.not_lt.mp hle)
    exact iff_of_true rfl (List.mem_of_getElem? hx)

end RegexScan.Ascending
