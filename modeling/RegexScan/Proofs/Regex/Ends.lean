import RegexScan.Proofs.Regex.Language
import RegexScan.Regex.Ends

/-!
# The positions found by following the tree

A tree stops at a position exactly if it matches the characters between the start and that
position.  Texts are cut at positions, so that a concatenation is a choice of a position in between
and a Kleene closure a chain of positions.
-/

namespace RegexScan.Regex

open scoped Computability

/-! ## Pieces of a text -/

/-- The characters of a text between two positions. -/
def slice (text : Array Char) (i j : Nat) : List Char := (text.extract i j).toList

variable {text : Array Char} {i j k : Nat}

theorem length_slice (hk : k ≤ text.size) : (slice text i k).length = k - i := by
  rw [slice, Array.length_toList, Array.size_extract, Nat.min_eq_left hk]

theorem slice_append (hij : i ≤ j) (hjk : j ≤ k) :
    slice text i j ++ slice text j k = slice text i k := by
  rw [slice, slice, ← Array.toList_append, Array.extract_append_extract,
    Nat.min_eq_left hij, Nat.max_eq_right hjk, slice]

theorem slice_self : slice text i i = [] := by simp [slice]

theorem slice_succ (h : i < text.size) : slice text i (i + 1) = [text[i]] := by
  rw [slice, Array.extract_succ_right (Nat.lt_succ_self i) h, Array.toList_push]
  simp

theorem slice_eq_nil_iff (hik : i ≤ k) (hk : k ≤ text.size) : slice text i k = [] ↔ i = k := by
  rw [← List.length_eq_zero_iff, length_slice hk]
  omega

/-- A slice is one character when its bounds lie around it. -/
theorem slice_eq_singleton_iff {c : Char} (hk : k ≤ text.size) :
    slice text i k = [c] ↔ text[i]? = some c ∧ k = i + 1 := by
  constructor
  · intro h
    have hlength := congrArg List.length h
    rw [length_slice hk, List.length_singleton] at hlength
    obtain rfl : k = i + 1 := by omega
    rw [slice_succ hk, List.singleton_inj] at h
    exact ⟨Array.getElem?_eq_some_iff.mpr ⟨hk, h⟩, rfl⟩
  · rintro ⟨hc, rfl⟩
    obtain ⟨hlt, rfl⟩ := Array.getElem?_eq_some_iff.mp hc
    exact slice_succ hlt

/-- Cutting a piece in two is choosing a position in it. -/
theorem slice_eq_append_iff {u v : List Char} (hik : i ≤ k) (hk : k ≤ text.size) :
    u ++ v = slice text i k ↔ ∃ j, i ≤ j ∧ j ≤ k ∧ u = slice text i j ∧ v = slice text j k := by
  constructor
  · intro h
    have hlen : u.length + v.length = k - i := by
      rw [← List.length_append, h, length_slice hk]
    have hj : i + u.length ≤ k := by omega
    refine ⟨i + u.length, Nat.le_add_right .., hj, ?_⟩
    apply List.append_inj
    · rw [h, slice_append (Nat.le_add_right ..) hj]
    · rw [length_slice (Nat.le_trans hj hk)]
      omega
  · rintro ⟨j, hij, hjk, rfl, rfl⟩
    exact slice_append hij hjk

/-- A slice is the empty word when its bounds meet. -/
theorem slice_mem_one (hik : i ≤ k) (hk : k ≤ text.size) :
    slice text i k ∈ (1 : Language Char) ↔ k = i := by
  rw [Language.mem_one, slice_eq_nil_iff hik hk, eq_comm]

/-- A slice belongs to a product when it falls into slices of the factors. -/
theorem slice_mem_mul {L M : Language Char} (hik : i ≤ k) (hk : k ≤ text.size) :
    slice text i k ∈ L * M ↔
      ∃ j, i ≤ j ∧ j ≤ k ∧ slice text i j ∈ L ∧ slice text j k ∈ M := by
  rw [Language.mem_mul]
  constructor
  · rintro ⟨u, hu, v, hv, h⟩
    obtain ⟨j, hij, hjk, rfl, rfl⟩ := (slice_eq_append_iff hik hk).mp h
    exact ⟨j, hij, hjk, hu, hv⟩
  · rintro ⟨j, hij, hjk, hu, hv⟩
    exact ⟨_, hu, _, hv, slice_append hij hjk⟩

/-- The last round of an iteration begins further left, since empty rounds can be left out. -/
theorem slice_mem_kstar {L : Language Char} (hik : i ≤ k) (hk : k ≤ text.size) :
    slice text i k ∈ L∗ ↔
      k = i ∨ ∃ j, i ≤ j ∧ j < k ∧ slice text i j ∈ L∗ ∧ slice text j k ∈ L := by
  constructor
  · intro h
    obtain ⟨rounds, hrounds, hmem⟩ := Language.mem_kstar_iff_exists_nonempty.mp h
    rcases List.eq_nil_or_concat rounds with rfl | ⟨init, last, rfl⟩
    · exact .inl ((slice_eq_nil_iff hik hk).mp hrounds).symm
    · right
      have hlast := hmem last (by simp)
      rw [List.concat_eq_append, List.flatten_append, List.flatten_singleton] at hrounds
      obtain ⟨j, hij, hjk, hinit, rfl⟩ := (slice_eq_append_iff hik hk).mp hrounds.symm
      have hne : j ≠ k := fun hjk ↦ hlast.2 (by rw [hjk, slice_self])
      refine ⟨j, hij, by omega, ?_, hlast.1⟩
      rw [← hinit]
      exact Language.join_mem_kstar fun y hy ↦ (hmem y (by simp [hy])).1
  · rintro (rfl | ⟨j, hij, hjk, hinit, hlast⟩)
    · rw [slice_self]
      exact Language.nil_mem_kstar L
    · rw [← Language.one_add_kstar_mul_self_eq_kstar, Language.mem_add, slice_mem_mul hik hk]
      exact .inr ⟨j, hij, Nat.le_of_lt hjk, hinit, hlast⟩

/-! ## Where a tree can stop -/

/-- A list of positions that holds, in ascending order, those up to which the text from `start` on
belongs to a language. -/
structure EndsOf (text : Array Char) (L : Language Char) (start : Nat) (es : List Nat) : Prop where
  ascending : es.Pairwise (· < ·)
  mem_iff : ∀ e, e ∈ es ↔ start ≤ e ∧ e ≤ text.size ∧ slice text start e ∈ L

namespace EndsOf

variable {L M : Language Char} {start : Nat} {es fs : List Nat}

theorem zero : EndsOf text 0 start [] where
  ascending := .nil
  mem_iff e := by simp [Language.notMem_zero]

theorem one (h : start ≤ text.size) : EndsOf text 1 start [start] where
  ascending := List.pairwise_singleton ..
  mem_iff e := by
    rw [List.mem_singleton]
    constructor
    · rintro rfl
      exact ⟨Nat.le_refl _, h, (slice_mem_one (Nat.le_refl _) h).mpr rfl⟩
    · rintro ⟨hse, he, hw⟩
      exact (slice_mem_one hse he).mp hw

theorem add (hL : EndsOf text L start es) (hM : EndsOf text M start fs) :
    EndsOf text (L + M) start (Ascending.union es fs) where
  ascending := Ascending.pairwise_union hL.ascending hM.ascending
  mem_iff e := by
    rw [Ascending.mem_union, hL.mem_iff, hM.mem_iff, Language.mem_add]
    tauto

/-- The ends of a product: the ends of the second factor from each end of the first. -/
theorem mul {f : Nat → List Nat} (hL : EndsOf text L start es)
    (hM : ∀ p, p ≤ text.size → EndsOf text M p (f p)) :
    EndsOf text (L * M) start (Ascending.ofList (es.flatMap f)) where
  ascending := Ascending.pairwise_ofList _
  mem_iff e := by
    rw [Ascending.mem_ofList, List.mem_flatMap]
    constructor
    · rintro ⟨p, hp, he⟩
      obtain ⟨hsp, hpn, hu⟩ := (hL.mem_iff p).mp hp
      obtain ⟨hpe, hen, hv⟩ := ((hM p hpn).mem_iff e).mp he
      have hse := Nat.le_trans hsp hpe
      exact ⟨hse, hen, (slice_mem_mul hse hen).mpr ⟨p, hsp, hpe, hu, hv⟩⟩
    · rintro ⟨hse, hen, hw⟩
      obtain ⟨p, hsp, hpe, hu, hv⟩ := (slice_mem_mul hse hen).mp hw
      have hpn := Nat.le_trans hpe hen
      exact ⟨p, (hL.mem_iff p).mpr ⟨hsp, hpn, hu⟩, ((hM p hpn).mem_iff e).mpr ⟨hpe, hen, hv⟩⟩

/-- One round of an iteration, tried from the position `p` if that was reached. -/
def tryFrom (f : Nat → List Nat) (reached : List Nat) (p : Nat) : List Nat :=
  if Ascending.mem p reached then Ascending.union reached (f p) else reached

/-- What is reached when one position more is tried. -/
theorem mem_tryFrom {f : Nat → List Nat} {reached : List Nat} {p e : Nat}
    (h : reached.Pairwise (· < ·)) :
    e ∈ tryFrom f reached p ↔ e ∈ reached ∨ p ∈ reached ∧ e ∈ f p := by
  have hmem : Ascending.mem p reached = true ↔ p ∈ reached := by
    rw [Ascending.mem_eq_contains h, List.contains_iff_mem]
  by_cases hp : p ∈ reached
  · rw [tryFrom, if_pos (hmem.mpr hp), Ascending.mem_union]
    simp [hp]
  · rw [tryFrom, if_neg (mt hmem.mp hp)]
    simp [hp]

/-- What an iteration has reached when all positions before `bound` have been tried: the ends of one
round from a tried position that belongs to the closure. -/
structure Rounds (text : Array Char) (L : Language Char) (f : Nat → List Nat) (start bound : Nat)
    (reached : List Nat) : Prop where
  ascending : reached.Pairwise (· < ·)
  mem_iff : ∀ e, e ∈ reached ↔
    e = start ∨ ∃ p, start ≤ p ∧ p < bound ∧ slice text start p ∈ L∗ ∧ e ∈ f p

theorem Rounds.init {f : Nat → List Nat} : Rounds text L f start start [start] where
  ascending := List.pairwise_singleton ..
  mem_iff e := by
    rw [List.mem_singleton]
    constructor
    · exact .inl
    · rintro (h | ⟨p, hsp, hp, -⟩)
      · exact h
      · omega

/-- A position is tried when all positions before it have been, so it has been reached by then
exactly if it belongs to the closure. -/
theorem Rounds.mem_bound_iff {f : Nat → List Nat} {p : Nat} {reached : List Nat}
    (hL : ∀ p, p ≤ text.size → EndsOf text L p (f p)) (h : Rounds text L f start p reached)
    (hs : start ≤ p) (hp : p ≤ text.size) : p ∈ reached ↔ slice text start p ∈ L∗ := by
  rw [h.mem_iff, slice_mem_kstar hs hp]
  refine or_congr_right (exists_congr fun q ↦ ?_)
  constructor
  · rintro ⟨hsq, hqp, hw, he⟩
    exact ⟨hsq, hqp, hw, (((hL q (by omega)).mem_iff p).mp he).2.2⟩
  · rintro ⟨hsq, hqp, hw, he⟩
    exact ⟨hsq, hqp, hw, ((hL q (by omega)).mem_iff p).mpr ⟨Nat.le_of_lt hqp, hp, he⟩⟩

/-- Trying a position moves the bound behind it. -/
theorem Rounds.tryFrom {f : Nat → List Nat} {p : Nat} {reached : List Nat}
    (hL : ∀ p, p ≤ text.size → EndsOf text L p (f p)) (h : Rounds text L f start p reached)
    (hs : start ≤ p) (hp : p ≤ text.size) :
    Rounds text L f start (p + 1) (tryFrom f reached p) where
  ascending := by
    unfold EndsOf.tryFrom
    split
    · exact Ascending.pairwise_union h.ascending (hL p hp).ascending
    · exact h.ascending
  mem_iff e := by
    rw [mem_tryFrom h.ascending, h.mem_bound_iff hL hs hp, h.mem_iff]
    constructor
    · rintro ((he | ⟨q, hsq, hqp, he⟩) | ⟨hw, he⟩)
      · exact .inl he
      · exact .inr ⟨q, hsq, by omega, he⟩
      · exact .inr ⟨p, hs, by omega, hw, he⟩
    · rintro (he | ⟨q, hsq, hqp, hw, he⟩)
      · exact .inl (.inl he)
      · rcases Nat.lt_or_eq_of_le (Nat.le_of_lt_succ hqp) with hlt | rfl
        · exact .inl (.inr ⟨q, hsq, hlt, hw, he⟩)
        · exact .inr ⟨hw, he⟩

/-- Trying the positions in order moves the bound along with them. -/
theorem rounds_foldl {f : Nat → List Nat} (hL : ∀ p, p ≤ text.size → EndsOf text L p (f p))
    (start n : Nat) (hn : start + n ≤ text.size + 1) :
    Rounds text L f start (start + n)
      ((List.range' start n).foldl (EndsOf.tryFrom f) [start]) := by
  induction n with
  | zero => exact .init
  | succ n ih =>
    rw [List.range'_1_concat, List.foldl_append, List.foldl_cons, List.foldl_nil]
    exact (ih (by omega)).tryFrom (p := start + n) hL (Nat.le_add_right ..) (by omega)

/-- The ends of an iteration are what is reached when every position has been tried. -/
theorem kstar {f : Nat → List Nat} (hs : start ≤ text.size)
    (hL : ∀ p, p ≤ text.size → EndsOf text L p (f p)) :
    EndsOf text L∗ start
      ((List.range' start (text.size + 1 - start)).foldl (tryFrom f) [start]) := by
  have h := rounds_foldl hL start (text.size + 1 - start) (by omega)
  refine ⟨h.ascending, ?_⟩
  intro e
  rw [h.mem_iff]
  constructor
  · rintro (rfl | ⟨p, hsp, hpn, hw, he⟩)
    · exact ⟨Nat.le_refl _, hs, by rw [slice_self]; exact Language.nil_mem_kstar L⟩
    · obtain ⟨hpe, hen, hv⟩ := ((hL p (by omega)).mem_iff e).mp he
      have hse := Nat.le_trans hsp hpe
      refine ⟨hse, hen, ?_⟩
      rw [← Language.one_add_kstar_mul_self_eq_kstar, Language.mem_add, slice_mem_mul hse hen]
      exact .inr ⟨p, hsp, hpe, hw, hv⟩
  · rintro ⟨hse, hen, hw⟩
    rcases (slice_mem_kstar hse hen).mp hw with h | ⟨p, hsp, hpe, hu, hv⟩
    · exact .inl h
    · exact .inr ⟨p, hsp, by omega, hu,
        ((hL p (by omega)).mem_iff e).mpr ⟨Nat.le_of_lt hpe, hen, hv⟩⟩

/-- A set ends behind a character that it holds. -/
theorem mem_ends_set {s : CharSet} {e : Nat} :
    e ∈ ends text (.set s) start ↔ ∃ c ∈ s, text[start]? = some c ∧ e = start + 1 := by
  rw [ends]
  cases text[start]? with
  | none => simp
  | some c =>
    change e ∈ (if c ∈ s then [start + 1] else []) ↔ _
    by_cases hc : c ∈ s <;> simp [hc]

theorem set {s : CharSet} :
    EndsOf text (Regex.set s).language start (ends text (.set s) start) where
  ascending := by
    rw [ends]
    split
    · split
      · exact List.pairwise_singleton ..
      · exact .nil
    · exact .nil
  mem_iff e := by
    rw [mem_ends_set, mem_language_set]
    constructor
    · rintro ⟨c, hc, hget, rfl⟩
      obtain ⟨hlt, -⟩ := Array.getElem?_eq_some_iff.mp hget
      exact ⟨Nat.le_succ _, hlt, c, hc, (slice_eq_singleton_iff hlt).mpr ⟨hget, rfl⟩⟩
    · rintro ⟨-, hen, c, hc, hw⟩
      obtain ⟨hget, he⟩ := (slice_eq_singleton_iff hen).mp hw
      exact ⟨c, hc, hget, he⟩

end EndsOf

mutual

/-- The ends of a tree are those of its language. -/
theorem endsOf_ends (r : Regex) (start : Nat) (h : start ≤ text.size) :
    EndsOf text r.language start (ends text r start) := by
  match r with
  | .seq rs =>
    rw [language, ends, ← one_mul (languageOfSeq rs)]
    exact endsOf_endsOfSeq rs (.one h)
  | .alt rs =>
    rw [language, ends]
    exact endsOf_endsOfAlt rs start h
  | .star r =>
    rw [language, ends]
    exact .kstar h fun p hp ↦ endsOf_ends r p hp
  | .set s => exact .set
  | .empty =>
    rw [language, ends]
    exact .one h

/-- The ends of a sequence, from the ends of what stands in front. -/
theorem endsOf_endsOfSeq {L : Language Char} {start : Nat} {starts : List Nat} (rs : List Regex)
    (h : EndsOf text L start starts) :
    EndsOf text (L * languageOfSeq rs) start (endsOfSeq text rs starts) := by
  match rs with
  | [] =>
    rw [languageOfSeq, mul_one, endsOfSeq]
    exact h
  | r :: rs =>
    rw [languageOfSeq, ← mul_assoc, endsOfSeq]
    exact endsOf_endsOfSeq rs (h.mul fun p hp ↦ endsOf_ends r p hp)

/-- The ends of alternatives. -/
theorem endsOf_endsOfAlt (rs : List Regex) (start : Nat) (h : start ≤ text.size) :
    EndsOf text (languageOfAlt rs) start (endsOfAlt text rs start) := by
  match rs with
  | [] =>
    rw [languageOfAlt, endsOfAlt]
    exact .zero
  | r :: rs =>
    rw [languageOfAlt, endsOfAlt]
    exact (endsOf_ends r start h).add (endsOf_endsOfAlt rs start h)

end

/-- A tree stops exactly at the ends of the pieces of the text that it matches. -/
theorem mem_ends_iff {r : Regex} {start e : Nat} (h : start ≤ text.size) :
    e ∈ ends text r start ↔ start ≤ e ∧ e ≤ text.size ∧ slice text start e ∈ r.language :=
  (endsOf_ends r start h).mem_iff e

/-- A full match is membership in the language. -/
theorem fullMatch_iff {r : Regex} {text : String} :
    r.fullMatch text = true ↔ text.toList ∈ r.language := by
  rw [fullMatch, List.contains_iff_mem, mem_ends_iff (Nat.zero_le _)]
  simp [slice]

end RegexScan.Regex
