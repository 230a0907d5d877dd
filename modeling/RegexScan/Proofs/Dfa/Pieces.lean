import Mathlib.Data.Finset.Option
import Mathlib.Data.List.Nodup
import RegexScan.Proofs.CharSet.Canonical
import RegexScan.Proofs.Dfa.Partition

/-!
# No more pieces than needed

An overlap is all that the labels it is cut from have in common, so what is left of them has nothing
in common any more and they never make a piece together again.  Pieces that are apart differ in a
character that some label lists, one complement aside.  That bounds their number, and with it how
often the splitting turns, even where an overlap of complements holds no character at all.
-/

namespace RegexScan

namespace CharSet

variable {s t : CharSet} {c : Char}

/-- A character that a set does not list is in it just when it is a complement. -/
theorem not_mem_items_iff : c ∉ s.items ↔ (c ∈ s ↔ s.negated = true) := by
  rw [mem_iff]
  cases s.negated <;> simp

theorem not_mem_items_inter (hs : c ∉ s.items) (ht : c ∉ t.items) : c ∉ (s ∩ t).items := by
  rw [not_mem_items_iff] at hs ht ⊢
  rw [mem_inter, Label.negated_inter, Bool.and_eq_true, hs, ht]

theorem not_mem_items_sdiff (hs : c ∉ s.items) (ht : c ∉ t.items) : c ∉ (s \ t).items := by
  rw [not_mem_items_iff] at hs ht ⊢
  rw [mem_sdiff, Label.negated_sdiff, Bool.and_eq_true, Bool.not_eq_true', ← Bool.not_eq_true, hs,
    ht]

/-- The first character of a finite set. -/
def first? (s : CharSet) : Option Char := if s.negated then none else s.items.head?

/-- The first item of a positive set is in it. -/
theorem first?_eq_some (h : s.first? = some c) : c ∈ s.items ∧ c ∈ s := by
  rw [first?] at h
  cases hs : s.negated with
  | true => simp [hs] at h
  | false =>
    rw [hs, if_neg Bool.false_ne_true] at h
    have hc := List.mem_of_head? h
    exact ⟨hc, mem_iff.mpr (by simp [hs, hc])⟩

theorem negated_of_first?_eq_none (hs : s.isEmpty = false) (h : s.first? = none) :
    s.negated = true := by
  cases hn : s.negated with
  | true => rfl
  | false =>
    rw [first?, hn, if_neg Bool.false_ne_true, List.head?_eq_none_iff] at h
    simp [isEmpty, hn, h] at hs

/-- Sets that are apart begin with different characters; only one of them can be a complement. -/
theorem first?_ne (hs : s.isEmpty = false) (ht : t.isEmpty = false)
    (h : (s ∩ t).isEmpty = true) : s.first? ≠ t.first? := by
  obtain ⟨hsign, happart⟩ := isEmpty_inter_iff.mp h
  intro heq
  cases hfirst : s.first? with
  | none =>
    have hs' := negated_of_first?_eq_none hs hfirst
    have ht' := negated_of_first?_eq_none ht (heq.symm.trans hfirst)
    simp [hs', ht'] at hsign
  | some c =>
    exact happart c (first?_eq_some hfirst).2 (first?_eq_some (heq.symm.trans hfirst)).2

end CharSet

open Label

namespace Label

variable {τ : Type} {piece : CharSet} {c : Char} {ls : List (Label τ)}
  {marked : List (Label τ × Bool)}

/-! ## What the labels of an overlap have in common -/

/-- Narrowing takes intersections with the marked labels and nothing else. -/
theorem narrow_induction {P : CharSet → Prop} (hinter : ∀ s t, P s → P t → P (s ∩ t))
    (hpiece : P piece) (h : ∀ l, (l, true) ∈ (narrow piece ls).2 → P l.chars) :
    P (narrow piece ls).1 := by
  induction ls generalizing piece with
  | nil => exact hpiece
  | cons m ls ih =>
    simp only [narrow] at h ⊢
    split at h
    · next hempty =>
      rw [if_pos hempty]
      exact ih hpiece fun l hl ↦ h l (.tail _ hl)
    · next hempty =>
      rw [if_neg hempty]
      exact ih (hinter _ _ hpiece (h m List.mem_cons_self)) fun l hl ↦ h l (.tail _ hl)

/-- So an overlap is the intersection of its labels. -/
theorem firstOverlap_induction {P : CharSet → Prop} (hinter : ∀ s t, P s → P t → P (s ∩ t))
    (hoverlap : firstOverlap ls = some (piece, marked))
    (h : ∀ l, (l, true) ∈ marked → P l.chars) : P piece := by
  induction ls generalizing piece marked with
  | nil => cases hoverlap
  | cons m ls ih =>
    simp only [firstOverlap] at hoverlap
    split at hoverlap
    · cases hoverlap
      exact narrow_induction hinter (h m List.mem_cons_self) fun l hl ↦ h l (.tail _ hl)
    · obtain ⟨⟨piece', marked'⟩, hrec, heq⟩ := Option.map_eq_some_iff.mp hoverlap
      cases heq
      exact ih hrec fun l hl ↦ h l (.tail _ hl)

theorem mem_of_firstOverlap (h : firstOverlap ls = some (piece, marked))
    (hc : ∀ l, (l, true) ∈ marked → c ∈ l.chars) : c ∈ piece :=
  firstOverlap_induction (P := (c ∈ ·)) (fun _ _ hs ht ↦ CharSet.mem_inter.mpr ⟨hs, ht⟩) h hc

/-- An overlap lists no character that no label lists. -/
theorem not_mem_items_of_firstOverlap (h : firstOverlap ls = some (piece, marked))
    (hls : ∀ l ∈ ls, c ∉ l.chars.items) : c ∉ piece.items := by
  refine firstOverlap_induction (P := (c ∉ ·.items)) (fun _ _ ↦ CharSet.not_mem_items_inter) h
    fun l hl ↦ ?_
  rw [← (overlap_of_firstOverlap h).2] at hls
  exact hls l (List.mem_map_of_mem hl)

/-- Nothing lies in all that a cut leaves of the labels of an overlap. -/
theorem isEmpty_of_within_cut (h : firstOverlap ls = some (piece, marked)) {s : CharSet}
    (hs : ∀ l, (l, true) ∈ marked → Within s (l.chars \ piece)) : s.isEmpty = true := by
  obtain ⟨hoverlap, -⟩ := overlap_of_firstOverlap h
  refine CharSet.isEmpty_iff.mpr ⟨?_, ?_⟩
  · -- the cut leaves a finite set of a finite label, and of every label if it takes a complement
    obtain ⟨l, hl, hfinite⟩ :
        ∃ l, (l, true) ∈ marked ∧ (l.chars \ piece).negated = false := by
      cases hpiece : piece.negated with
      | false =>
        obtain ⟨l, hl, hfinite⟩ := hoverlap.finite hpiece
        exact ⟨l, hl, by rw [negated_sdiff, hfinite]; rfl⟩
      | true =>
        obtain ⟨l, hl⟩ := hoverlap.exists_hit
        exact ⟨l, hl, by rw [negated_sdiff, hpiece]; exact Bool.and_false _⟩
    exact (hs l hl).finite hfinite
  · intro c hc
    have hleft : ∀ l, (l, true) ∈ marked → c ∈ l.chars ∧ c ∉ piece := fun l hl ↦
      CharSet.mem_sdiff.mp ((hs l hl).mem c hc)
    obtain ⟨l, hl⟩ := hoverlap.exists_hit
    exact (hleft l hl).2 (mem_of_firstOverlap h fun m hm ↦ (hleft m hm).1)

/-- Cutting keeps the targets of the labels, in their order. -/
theorem map_target_cut (piece : CharSet) (marked : List (Label τ × Bool)) :
    (cut piece marked).map (·.target) = (marked.map (·.1)).map (·.target) := by
  rw [cut, List.map_map, List.map_map]
  apply List.map_congr_left
  rintro ⟨l, hit⟩ -
  cases hit <;> rfl

end Label

/-! ## Every piece has its own targets -/

section

variable {τ : Type} {ls : List (Label τ)} {p : Piece τ}

/-- The labels of an overlap make no other piece: it would lie in all that the cut left of them. -/
theorem targets_ne_hits {piece : CharSet} {marked : List (Label τ × Bool)}
    (h : firstOverlap ls = some (piece, marked)) (hnodup : (ls.map (·.target)).Nodup)
    (hp : p ∈ partition (cut piece marked)) : p.targets ≠ hits marked := by
  intro heq
  have hcut : ((cut piece marked).map (·.target)).Nodup := by
    rwa [map_target_cut, (overlap_of_firstOverlap h).2]
  have hempty : p.chars.isEmpty = true := by
    refine isEmpty_of_within_cut h fun l hl ↦ ?_
    have ht : l.target ∈ p.targets := heq ▸ mem_hits.mpr ⟨l, hl, rfl⟩
    obtain ⟨m, hm, htarget, hwithin⟩ := exists_within_of_mem_targets hp ht
    have hleft : { l with chars := l.chars \ piece } ∈ cut piece marked :=
      List.mem_map.mpr ⟨(l, true), hl, rfl⟩
    obtain rfl := List.inj_on_of_nodup_map hcut hm hleft htarget
    exact hwithin
  rw [isEmpty_of_mem_partition hp] at hempty
  cases hempty

/-- Labels with distinct targets make pieces with distinct lists of targets. -/
theorem nodup_targets_partition (h : (ls.map (·.target)).Nodup) :
    ((partition ls).map (·.targets)).Nodup := by
  induction ls using partition.induct with
  | case1 ls piece marked hoverlap ih =>
    rw [partition_of_some hoverlap, List.map_cons, List.nodup_cons]
    refine ⟨fun hmem ↦ ?_, ih ?_⟩
    · obtain ⟨p, hp, heq⟩ := List.mem_map.mp hmem
      exact targets_ne_hits hoverlap h hp heq
    · rwa [map_target_cut, (overlap_of_firstOverlap hoverlap).2]
  | case2 ls hnone =>
    rw [partition_of_none hnone, List.map_map]
    have hleft : ((ls.filter (!·.chars.isEmpty)).map (·.target)).Nodup :=
      h.sublist (List.filter_sublist.map _)
    have heq : ((fun p : Piece τ ↦ p.targets) ∘ fun l : Label τ ↦ Piece.mk l.chars [l.target]) =
        (fun t ↦ [t]) ∘ fun l : Label τ ↦ l.target := rfl
    rw [heq, ← List.map_map]
    exact hleft.map List.singleton_injective

/-- Labels are split into pieces that are apart.  A character that some label holds is in exactly
one of them, which leads where all labels with that character lead, in their order; any other is in
none.  If no two labels lead to the same target, no two pieces lead to the same targets, so none of
them is split further than it has to be. -/
theorem partition_splits_by_targets (ls : List (Label τ)) :
    ((partition ls).Pairwise fun p q ↦
        (p.chars ∩ q.chars).isEmpty = true ∧ ∀ c, ¬(c ∈ p.chars ∧ c ∈ q.chars)) ∧
      (∀ c, (∃ l ∈ ls, c ∈ l.chars) →
        ∃ p, (partition ls).filter (·.chars.contains c) = [p] ∧
          p.targets = (ls.filter (·.chars.contains c)).map (·.target)) ∧
      (∀ c, (∀ l ∈ ls, c ∉ l.chars) → ∀ p ∈ partition ls, c ∉ p.chars) ∧
      ((ls.map (·.target)).Nodup → ((partition ls).map (·.targets)).Nodup) := by
  refine ⟨?_, ?_, ?_, nodup_targets_partition⟩
  · refine (pairwise_partition ls).imp fun hempty ↦ ⟨hempty, ?_⟩
    rintro c ⟨hp, hq⟩
    exact (CharSet.isEmpty_inter_iff.mp hempty).2 c hp hq
  · rintro c ⟨l, hl, hc⟩
    have hne : targetsOn c ls ≠ [] := fun hnil ↦ targetsOn_eq_nil_iff.mp hnil l hl hc
    have htargets := targets_partition c ls
    rw [if_neg hne] at htargets
    obtain ⟨p, hfilter, hp⟩ := List.map_eq_singleton_iff.mp htargets
    exact ⟨p, hfilter, hp⟩
  · intro c hnone p hp hc
    have htargets := targets_partition c ls
    rw [if_pos (targetsOn_eq_nil_iff.mpr hnone), List.map_eq_nil_iff] at htargets
    exact List.filter_eq_nil_iff.mp htargets p hp hc

/-- Three labels that overlap in several ways, one of them a complement: `c` is in all of them, and
`e` in none. -/
theorem partition_three_labels :
    let ls : List (Label Nat) :=
      [⟨⟨['a', 'b', 'c'], false, by decide⟩, 1⟩, ⟨⟨['b', 'e'], true, by decide⟩, 2⟩,
        ⟨⟨['c', 'd'], false, by decide⟩, 3⟩]
    (∃ p, (partition ls).filter (·.chars.contains 'c') = [p] ∧ p.targets = [1, 2, 3]) ∧
      (∀ p ∈ partition ls, 'e' ∉ p.chars) ∧ ((partition ls).map (·.targets)).Nodup := by
  intro ls
  obtain ⟨-, hsome, hnone, hnodup⟩ := partition_splits_by_targets ls
  exact ⟨hsome 'c' (by decide), hnone 'e' (by decide), hnodup (by decide)⟩

end

/-! ## How often the splitting turns -/

namespace Label

variable {τ : Type} {piece : CharSet} {c : Char} {ls : List (Label τ)}
  {marked : List (Label τ × Bool)}

/-- The characters that the labels list, as members or as what they leave out. -/
def listedChars (ls : List (Label τ)) : Finset Char := (ls.flatMap (·.chars.items)).toFinset

theorem mem_listedChars : c ∈ listedChars ls ↔ ∃ l ∈ ls, c ∈ l.chars.items := by
  rw [listedChars, List.mem_toFinset, List.mem_flatMap]

theorem not_mem_items_of_mem_cut (hpiece : c ∉ piece.items)
    (h : ∀ l ∈ marked.map (·.1), c ∉ l.chars.items) {l : Label τ} (hl : l ∈ cut piece marked) :
    c ∉ l.chars.items := by
  obtain ⟨⟨m, hit⟩, hm, rfl⟩ := List.mem_map.mp hl
  have hm' := h m (List.mem_map_of_mem hm)
  cases hit with
  | false => exact hm'
  | true => exact CharSet.not_mem_items_sdiff hm' hpiece

/-- The pieces list no other characters than the labels. -/
theorem not_mem_items_partition (h : ∀ l ∈ ls, c ∉ l.chars.items) {p : Piece τ}
    (hp : p ∈ partition ls) : c ∉ p.chars.items := by
  induction ls using partition.induct with
  | case1 ls piece marked hoverlap ih =>
    have hpiece := not_mem_items_of_firstOverlap hoverlap h
    rw [partition_of_some hoverlap] at hp
    rcases List.mem_cons.mp hp with rfl | hp
    · exact hpiece
    · rw [← (overlap_of_firstOverlap hoverlap).2] at h
      exact ih (fun l hl ↦ not_mem_items_of_mem_cut hpiece h hl) hp
  | case2 ls hnone =>
    rw [partition_of_none hnone] at hp
    obtain ⟨l, hl, rfl⟩ := List.mem_map.mp hp
    exact h l (List.mem_filter.mp hl).1

/-- There is at most one piece for each listed character, and one for all others. -/
theorem length_partition_le (ls : List (Label τ)) :
    (partition ls).length ≤ (listedChars ls).card + 1 := by
  have hnodup : ((partition ls).map (·.chars.first?)).Nodup := by
    refine List.pairwise_map.mpr ((pairwise_partition ls).imp_of_mem ?_)
    intro p q hp hq hapart
    exact CharSet.first?_ne (isEmpty_of_mem_partition hp) (isEmpty_of_mem_partition hq) hapart
  have hsub : ((partition ls).map (·.chars.first?)).toFinset ⊆
      Finset.insertNone (listedChars ls) := by
    intro first hfirst
    obtain ⟨p, hp, rfl⟩ := List.mem_map.mp (List.mem_toFinset.mp hfirst)
    rw [Finset.mem_insertNone]
    intro c hc
    by_contra hnot
    rw [mem_listedChars] at hnot
    push Not at hnot
    exact not_mem_items_partition hnot hp (CharSet.first?_eq_some hc).1
  have hcard := Finset.card_le_card hsub
  rwa [List.toFinset_card_of_nodup hnodup, List.length_map, Finset.card_insertNone] at hcard

/-- The pieces that some turns of the splitting cut out, one for each turn, and what is left. -/
inductive Turns {τ : Type} : List (Label τ) → List (Piece τ) → List (Label τ) → Prop
  | refl (ls : List (Label τ)) : Turns ls [] ls
  | turn {ls rest : List (Label τ)} {piece : CharSet} {marked : List (Label τ × Bool)}
      {ps : List (Piece τ)} :
      firstOverlap ls = some (piece, marked) → Turns (cut piece marked) ps rest →
        Turns ls (⟨piece, hits marked⟩ :: ps) rest

/-- The pieces of a run come in front of those of what it leaves. -/
theorem Turns.partition_eq {rest : List (Label τ)} {ps : List (Piece τ)} (h : Turns ls ps rest) :
    partition ls = ps ++ partition rest := by
  induction h with
  | refl => rfl
  | turn hoverlap _ ih => rw [partition_of_some hoverlap, ih, List.cons_append]

theorem exists_turns (ls : List (Label τ)) :
    ∃ ps rest, Turns ls ps rest ∧ firstOverlap rest = none := by
  induction ls using partition.induct with
  | case1 ls piece marked hoverlap ih =>
    obtain ⟨ps, rest, hturns, hnone⟩ := ih
    exact ⟨_, rest, .turn hoverlap hturns, hnone⟩
  | case2 ls hnone => exact ⟨[], ls, .refl ls, hnone⟩

/-- Whatever the labels are, the splitting comes to an end: it can not turn more often than there
are characters that the labels list, and once more for all others.  Then no two labels overlap, and
what is left of them are the last pieces. -/
theorem splitting_ends (ls : List (Label τ)) :
    (∀ ps rest, Turns ls ps rest → ps.length ≤ (listedChars ls).card + 1) ∧
      ∃ ps rest, Turns ls ps rest ∧ firstOverlap rest = none ∧
        partition ls =
          ps ++ (rest.filter (!·.chars.isEmpty)).map fun l ↦ ⟨l.chars, [l.target]⟩ := by
  constructor
  · intro ps rest hturns
    have hle := length_partition_le ls
    rw [hturns.partition_eq, List.length_append] at hle
    exact (Nat.le_add_right _ _).trans hle
  · obtain ⟨ps, rest, hturns, hnone⟩ := exists_turns ls
    refine ⟨ps, rest, hturns, hnone, ?_⟩
    rw [hturns.partition_eq, partition_of_none hnone]

/-- Two complements that leave no character between them still count as an overlap.  It is cut out
once, although it holds nothing, and then the labels are finite. -/
theorem splitting_ends_without_character :
    let low := CharSet.range (Char.ofNat 0) 'm'
    let high := CharSet.range 'n' (Char.ofNat 0x10FFFF)
    let piece := low.compl ∩ high.compl
    let ls : List (Label Nat) := [⟨low.compl, 1⟩, ⟨high.compl, 2⟩]
    (∀ c, c ∉ piece) ∧
      Turns ls [⟨piece, [1, 2]⟩] [⟨low.compl \ piece, 1⟩, ⟨high.compl \ piece, 2⟩] ∧
        [(⟨piece, [1, 2]⟩ : Piece Nat)].length ≤ (listedChars ls).card + 1 := by
  intro low high piece ls
  have hpiece : piece.isEmpty = false := by
    have hlow : low.compl.negated = true := by rw [CharSet.compl, CharSet.negated_range]; rfl
    have hhigh : high.compl.negated = true := by rw [CharSet.compl, CharSet.negated_range]; rfl
    rw [CharSet.isEmpty, negated_inter, hlow, hhigh]
    rfl
  have hnarrow : narrow low.compl [⟨high.compl, 2⟩] = (piece, [(⟨high.compl, 2⟩, true)]) := by
    rw [narrow, if_neg (by rw [hpiece]; exact Bool.false_ne_true)]
    rfl
  have hoverlap : firstOverlap ls =
      some (piece, [(⟨low.compl, 1⟩, true), (⟨high.compl, 2⟩, true)]) := by
    rw [firstOverlap, hnarrow]
    rfl
  have hturns : Turns ls [⟨piece, [1, 2]⟩] [⟨low.compl \ piece, 1⟩, ⟨high.compl \ piece, 2⟩] :=
    .turn hoverlap (.refl _)
  refine ⟨?_, hturns, (splitting_ends ls).1 _ _ hturns⟩
  intro c hc
  obtain ⟨hlow, hhigh⟩ := CharSet.mem_inter.mp hc
  rw [CharSet.mem_compl] at hlow hhigh
  rcases Nat.lt_or_ge c.toNat 'n'.toNat with hlt | hge
  · exact hlow (CharSet.mem_range.mpr (.inl ⟨Nat.zero_le c.toNat, Nat.le_of_lt_succ hlt⟩))
  · exact hhigh (CharSet.mem_range_last hge)

end Label

end RegexScan
