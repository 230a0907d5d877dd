/-!
# Merging strictly ascending lists
-/

namespace RegexScan.Ascending

variable {α : Type}

/-- What is below the first item is below all of them. -/
theorem forall_lt_of_lt [LE α] [LT α] [Std.IsLinearOrder α] [Std.LawfulOrderLT α] {x y : α}
    {ys : List α} (hlt : x < y) (h : (y :: ys).Pairwise (· < ·)) : ∀ z ∈ y :: ys, x < z :=
  List.forall_mem_cons.mpr
    ⟨hlt, fun _ hz ↦ Std.lt_trans hlt ((List.pairwise_cons.mp h).1 _ hz)⟩

/-! ## Repeats -/

section

variable [DecidableEq α]

/-- Collapse runs of equal neighbours. -/
def dropRepeats (xs : List α) : List α :=
  xs.foldr (fun x r ↦ if r.head? = some x then r else x :: r) []

theorem dropRepeats_cons (x : α) (xs : List α) :
    dropRepeats (x :: xs) =
      if (dropRepeats xs).head? = some x then dropRepeats xs else x :: dropRepeats xs := rfl

/-- Only repeats are dropped, so the members stay. -/
theorem mem_dropRepeats {x : α} {xs : List α} : x ∈ dropRepeats xs ↔ x ∈ xs := by
  induction xs with
  | nil => rfl
  | cons y ys ih =>
    rw [dropRepeats_cons, List.mem_cons]
    split
    · next hhead =>
      rw [ih]
      refine ⟨.inr, ?_⟩
      rintro (rfl | hx)
      · exact ih.mp (List.mem_of_mem_head? hhead)
      · exact hx
    · rw [List.mem_cons, ih]

variable [LE α] [LT α] [Std.IsLinearOrder α] [Std.LawfulOrderLT α]

/-- In a sorted list equal items are neighbours, so no item is left twice. -/
theorem pairwise_dropRepeats {xs : List α} (h : xs.Pairwise (· ≤ ·)) :
    (dropRepeats xs).Pairwise (· < ·) := by
  induction h with
  | nil => exact .nil
  | @cons x xs hle _ ih =>
    have hle' : ∀ z ∈ dropRepeats xs, x ≤ z := fun z hz ↦ hle z (mem_dropRepeats.mp hz)
    rw [dropRepeats_cons]
    split
    · exact ih
    · next hne =>
      cases hrest : dropRepeats xs with
      | nil => exact List.pairwise_singleton _ x
      | cons y ys =>
        rw [hrest] at ih hle' hne
        have hlt : x < y := Std.lt_of_le_of_ne (hle' y List.mem_cons_self) fun heq ↦
          hne (congrArg some heq.symm)
        exact .cons (forall_lt_of_lt hlt ih) ih

end

/-! ## The order as a test -/

section

variable [LE α] [DecidableLE α]

theorem pairwise_decide_le [LT α] [Std.LawfulOrderLT α] {xs : List α} (h : xs.Pairwise (· < ·)) :
    xs.Pairwise fun a b ↦ decide (a ≤ b) = true :=
  h.imp fun hlt ↦ decide_eq_true (Std.le_of_lt hlt)

variable [Std.IsLinearOrder α]

theorem decide_le_trans (a b c : α) (hab : decide (a ≤ b) = true) (hbc : decide (b ≤ c) = true) :
    decide (a ≤ c) = true :=
  decide_eq_true (Std.le_trans (of_decide_eq_true hab) (of_decide_eq_true hbc))

theorem decide_le_total (a b : α) : (decide (a ≤ b) || decide (b ≤ a)) = true := by
  rw [Bool.or_eq_true, decide_eq_true_iff, decide_eq_true_iff]
  exact Std.le_total

end

/-! ## From any list, from two lists, and looking for a member -/

section

variable [LE α] [DecidableLE α] [DecidableEq α]

/-- The members of a list, each once and in ascending order. -/
def ofList (xs : List α) : List α :=
  dropRepeats (xs.mergeSort (· ≤ ·))

/-- Sorting neither adds nor loses a member. -/
theorem mem_ofList {x : α} {xs : List α} : x ∈ ofList xs ↔ x ∈ xs := by
  rw [ofList, mem_dropRepeats, List.mem_mergeSort]

/-- The members of either list. -/
def union (xs ys : List α) : List α :=
  dropRepeats (xs.merge ys (· ≤ ·))

/-- The union has the members of either list. -/
theorem mem_union {x : α} {xs ys : List α} : x ∈ union xs ys ↔ x ∈ xs ∨ x ∈ ys := by
  rw [union, mem_dropRepeats, List.mem_merge]

/-- Whether `x` is a member: only the first item that is not below it can be it. -/
def mem (x : α) (xs : List α) : Bool :=
  xs.find? (x ≤ ·) == some x

variable [LT α] [Std.LawfulOrderLT α]

/-- An ascending list is the list of its members already. -/
theorem ofList_of_pairwise {xs : List α} (h : xs.Pairwise (· < ·)) : ofList xs = xs := by
  rw [ofList, List.mergeSort_of_pairwise (pairwise_decide_le h)]
  induction h with
  | nil => rfl
  | @cons x xs hlt _ ih =>
    rw [dropRepeats_cons, ih, if_neg]
    intro hhead
    exact Std.lt_irrefl (hlt x (List.mem_of_mem_head? hhead))

variable [Std.IsLinearOrder α]

/-- Whatever the list, its members come out strictly ascending. -/
theorem pairwise_ofList (xs : List α) : (ofList xs).Pairwise (· < ·) := by
  apply pairwise_dropRepeats
  exact (List.pairwise_mergeSort decide_le_trans decide_le_total xs).imp of_decide_eq_true

/-- The union of ascending lists is ascending. -/
theorem pairwise_union {xs ys : List α} (hx : xs.Pairwise (· < ·)) (hy : ys.Pairwise (· < ·)) :
    (union xs ys).Pairwise (· < ·) := by
  apply pairwise_dropRepeats
  exact (List.pairwise_merge decide_le_trans decide_le_total xs ys (pairwise_decide_le hx)
    (pairwise_decide_le hy)).imp of_decide_eq_true

/-- In an ascending list no item behind the first one that is not below `x` can be `x`. -/
theorem mem_eq_contains {x : α} {xs : List α} (h : xs.Pairwise (· < ·)) :
    mem x xs = xs.contains x := by
  induction h with
  | nil => rfl
  | @cons y ys hlt _ ih =>
    rw [mem, List.find?_cons, List.contains_cons]
    split
    · next hle =>
      have hnot : ys.contains x = false := by
        rw [← Bool.not_eq_true, List.contains_iff_mem]
        exact fun hx ↦ Std.not_lt.mpr (of_decide_eq_true hle) (hlt x hx)
      rw [hnot, Bool.or_false, Option.some_beq_some, BEq.comm]
    · next hle =>
      have hne : x ≠ y := fun heq ↦ of_decide_eq_false hle (Std.le_of_eq heq)
      rw [beq_false_of_ne hne, Bool.false_or, ← ih, mem]

end

/-! ## What is in both lists or only in one -/

section

variable [LT α] [DecidableLT α]

section

variable [LE α] [Std.IsLinearOrder α] [Std.LawfulOrderLT α]

/-- What is dropped is below `x`, and so is no item that is not. -/
private theorem mem_dropWhile_lt {x z : α} {ys : List α} (hz : x ≤ z) :
    z ∈ ys.dropWhile (· < x) ↔ z ∈ ys := by
  induction ys with
  | nil => rfl
  | cons y ys ih =>
    rw [List.dropWhile_cons]
    split
    · next hlt =>
      have hne : z ≠ y := by
        rintro rfl
        exact Std.not_lt.mpr hz (of_decide_eq_true hlt)
      rw [ih, List.mem_cons, or_iff_right hne]
    · rfl

end

variable [DecidableEq α]

/-- The items of `xs` that are members of `ys`, or with `keep = false` those that are not,
behind the reversed `acc`.  One walk along both lists. -/
def select (keep : Bool) : List α → List α → List α → List α
  | [], _, acc => acc.reverse
  | x :: xs, ys, acc =>
    let ys := ys.dropWhile (· < x)
    select keep xs ys (if (ys.head? == some x) == keep then x :: acc else acc)

/-- The members of both lists. -/
def inter (xs ys : List α) : List α :=
  select true xs ys []

/-- The members of the first list that the second lacks. -/
def diff (xs ys : List α) : List α :=
  select false xs ys []

variable [LE α] [Std.LawfulOrderLT α]

/-- Where the items below `x` end, `x` comes first if it is there at all. -/
private theorem head?_dropWhile_lt {x : α} {ys : List α} (h : ys.Pairwise (· < ·)) :
    ((ys.dropWhile (· < x)).head? == some x) = ys.contains x := by
  induction h with
  | nil => rfl
  | @cons y ys hlt _ ih =>
    rw [List.dropWhile_cons, List.contains_cons]
    split
    · next hyx =>
      have hne : x ≠ y := by
        rintro rfl
        exact Std.lt_irrefl (of_decide_eq_true hyx)
      rw [ih, beq_false_of_ne hne, Bool.false_or]
    · next hyx =>
      have hnot : ys.contains x = false := by
        rw [← Bool.not_eq_true, List.contains_iff_mem]
        exact fun hx ↦ hyx (decide_eq_true (hlt x hx))
      rw [hnot, Bool.or_false, List.head?_cons, Option.some_beq_some, BEq.comm]

variable [Std.IsLinearOrder α]

/-- The walk keeps what a filter keeps: the items skipped in `ys` are below all that follow in
`xs`. -/
theorem select_eq_filter (keep : Bool) {xs ys : List α} (acc : List α)
    (hx : xs.Pairwise (· < ·)) (hy : ys.Pairwise (· < ·)) :
    select keep xs ys acc = acc.reverse ++ xs.filter (fun x ↦ ys.contains x == keep) := by
  induction hx generalizing ys acc with
  | nil => exact (List.append_nil _).symm
  | @cons x xs hlt _ ih =>
    have hrest : xs.filter (fun z ↦ (ys.dropWhile (· < x)).contains z == keep) =
        xs.filter (fun z ↦ ys.contains z == keep) := by
      refine List.filter_congr fun z hz ↦ ?_
      rw [List.contains_eq_mem, List.contains_eq_mem,
        decide_eq_decide.mpr (mem_dropWhile_lt (Std.le_of_lt (hlt z hz)))]
    rw [select, ih _ (hy.sublist (List.dropWhile_sublist _)), hrest, head?_dropWhile_lt hy,
      List.filter_cons]
    split
    · rw [List.reverse_cons, List.append_assoc, List.singleton_append]
    · rfl

section

variable {xs ys : List α} (hx : xs.Pairwise (· < ·)) (hy : ys.Pairwise (· < ·))
include hx hy

theorem inter_eq_filter : inter xs ys = xs.filter (ys.contains ·) := by
  rw [inter, select_eq_filter true [] hx hy]
  exact List.filter_congr fun z _ ↦ beq_true (ys.contains z)

theorem diff_eq_filter : diff xs ys = xs.filter (!ys.contains ·) := by
  rw [diff, select_eq_filter false [] hx hy]
  exact List.filter_congr fun z _ ↦ beq_false (ys.contains z)

theorem mem_inter {x : α} : x ∈ inter xs ys ↔ x ∈ xs ∧ x ∈ ys := by
  rw [inter_eq_filter hx hy, List.mem_filter, List.contains_iff_mem]

theorem mem_diff {x : α} : x ∈ diff xs ys ↔ x ∈ xs ∧ x ∉ ys := by
  rw [diff_eq_filter hx hy, List.mem_filter, Bool.not_eq_true', ← Bool.not_eq_true,
    List.contains_iff_mem]

/-- What both lists have is ascending as they are. -/
theorem pairwise_inter : (inter xs ys).Pairwise (· < ·) := by
  rw [inter_eq_filter hx hy]
  exact hx.filter _

/-- What the second list lacks is ascending as the first one is. -/
theorem pairwise_diff : (diff xs ys).Pairwise (· < ·) := by
  rw [diff_eq_filter hx hy]
  exact hx.filter _

end

end

end RegexScan.Ascending
