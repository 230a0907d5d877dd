import Mathlib.Data.List.Basic
import RegexScan.Dfa.Partition
import RegexScan.Proofs.CharSet.Algebra

/-!
# Splitting labels is exact

A character that no label holds is in no piece.  Any other is in exactly one piece, and the targets
of that piece are those of the labels that hold the character, in the order of the labels.  The
reason is that an overlap, when it is cut out, lies within every label that it is cut from and
apart from every other one.  Apart means more here than without common members, as two complements
always count as meeting: so no two pieces are complements.
-/

namespace RegexScan

namespace CharSet

/-- A set that is structurally empty holds no character. -/
theorem not_mem_of_isEmpty {s : CharSet} (h : s.isEmpty = true) (c : Char) : c ∉ s := by
  simp only [isEmpty, Bool.and_eq_true, Bool.not_eq_true', List.isEmpty_iff] at h
  simp [mem_iff, h]

/-- A finite set without members lists nothing. -/
theorem isEmpty_iff {s : CharSet} : s.isEmpty = true ↔ s.negated = false ∧ ∀ c, c ∉ s := by
  rw [isEmpty, Bool.and_eq_true, Bool.not_eq_true', List.isEmpty_iff,
    List.eq_nil_iff_forall_not_mem]
  refine and_congr_right fun hs ↦ forall_congr' fun c ↦ ?_
  rw [mem_iff, hs, iff_true_right rfl]

/-- Two sets meet in none that counts as empty if both are complements. -/
theorem isEmpty_inter_iff {s t : CharSet} :
    (s ∩ t).isEmpty = true ↔ (s.negated = false ∨ t.negated = false) ∧ ∀ c ∈ s, c ∉ t := by
  rw [isEmpty_iff, Label.negated_inter, Bool.and_eq_false_iff]
  refine and_congr_right fun _ ↦ forall_congr' fun c ↦ ?_
  rw [mem_inter, not_and]

theorem isEmpty_inter_comm {s t : CharSet} : (s ∩ t).isEmpty = (t ∩ s).isEmpty := by
  rw [Bool.eq_iff_iff, isEmpty_inter_iff, isEmpty_inter_iff, or_comm]
  exact and_congr_right fun _ ↦ ⟨fun h c ht hs ↦ h c hs ht, fun h c hs ht ↦ h c ht hs⟩

end CharSet

namespace Label

variable {τ : Type} {piece : CharSet} {c : Char} {ls : List (Label τ)}
  {marked : List (Label τ × Bool)}

/-- The targets of the labels that hold a character. -/
def targetsOn (c : Char) (ls : List (Label τ)) : List τ :=
  (ls.filter (·.chars.contains c)).map (·.target)

theorem targetsOn_cons_of_mem {l : Label τ} (h : c ∈ l.chars) (ls : List (Label τ)) :
    targetsOn c (l :: ls) = l.target :: targetsOn c ls := by
  rw [targetsOn, List.filter_cons_of_pos (p := fun l : Label τ ↦ l.chars.contains c) h,
    List.map_cons, targetsOn]

theorem targetsOn_cons_of_not_mem {l : Label τ} (h : c ∉ l.chars) (ls : List (Label τ)) :
    targetsOn c (l :: ls) = targetsOn c ls := by
  rw [targetsOn, List.filter_cons_of_neg (p := fun l : Label τ ↦ l.chars.contains c) h, targetsOn]

theorem mem_targetsOn {t : τ} : t ∈ targetsOn c ls ↔ ∃ l ∈ ls, c ∈ l.chars ∧ l.target = t := by
  simp only [targetsOn, List.mem_map, List.mem_filter, and_assoc]
  rfl

theorem targetsOn_eq_nil_iff : targetsOn c ls = [] ↔ ∀ l ∈ ls, c ∉ l.chars := by
  rw [targetsOn, List.map_eq_nil_iff, List.filter_eq_nil_iff]
  rfl

/-! ## What the marks mean -/

/-- A part of a set is apart from whatever the set is apart from. -/
theorem Within.isEmpty_inter {p q s : CharSet} (h : Within p q) (hq : (q ∩ s).isEmpty = true) :
    (p ∩ s).isEmpty = true := by
  rw [CharSet.isEmpty_inter_iff] at hq ⊢
  exact ⟨hq.1.imp_left h.finite, fun c hc ↦ hq.2 c (h.mem c hc)⟩

theorem isEmpty_inter_narrow {l : Label τ} (h : (l, false) ∈ (narrow piece ls).2) :
    ((narrow piece ls).1 ∩ l.chars).isEmpty = true := by
  induction ls generalizing piece with
  | nil => cases h
  | cons m ls ih =>
    simp only [narrow] at h ⊢
    split at h
    · next hempty =>
      rw [if_pos hempty]
      rcases List.mem_cons.mp h with heq | h
      · cases heq
        exact (narrowed_narrow piece ls).within.isEmpty_inter hempty
      · exact ih h
    · next hempty =>
      rw [if_neg hempty]
      exact ih ((List.mem_cons.mp h).resolve_left (by simp))

/-- A piece that marks no label lies apart from all of them. -/
theorem isEmpty_inter_of_narrow_unmarked (h : (narrow piece ls).2.any (·.2) = false) :
    ∀ l ∈ ls, (piece ∩ l.chars).isEmpty = true := by
  induction ls with
  | nil => simp
  | cons m ls ih =>
    simp only [narrow] at h
    split at h
    · next hempty =>
      intro l hl
      rcases List.mem_cons.mp hl with rfl | hl
      · exact hempty
      · exact ih (by simpa using h) l hl
    · simp at h

/-- An overlap is apart from the labels that it is not cut from. -/
theorem isEmpty_inter_of_firstOverlap {l : Label τ} (h : firstOverlap ls = some (piece, marked))
    (hl : (l, false) ∈ marked) : (piece ∩ l.chars).isEmpty = true := by
  induction ls generalizing piece marked with
  | nil => cases h
  | cons m ls ih =>
    simp only [firstOverlap] at h
    split at h
    · cases h
      exact isEmpty_inter_narrow ((List.mem_cons.mp hl).resolve_left (by simp))
    · next hnone =>
      obtain ⟨⟨piece', marked'⟩, hrec, heq⟩ := Option.map_eq_some_iff.mp h
      cases heq
      rcases List.mem_cons.mp hl with heq | hl
      · cases heq
        -- the overlap lies in a later label, and `l` meets none of those
        obtain ⟨hoverlap, hmap⟩ := overlap_of_firstOverlap hrec
        obtain ⟨k, hk⟩ := hoverlap.exists_hit
        have hkls : k ∈ ls := hmap ▸ List.mem_map_of_mem hk
        have hempty := isEmpty_inter_of_narrow_unmarked (by simpa using hnone) k hkls
        rw [CharSet.isEmpty_inter_comm] at hempty
        exact (hoverlap.within k hk).isEmpty_inter hempty
      · exact ih hrec hl

/-- No label outside an overlap holds a character of it. -/
theorem not_mem_of_firstOverlap_unmarked {l : Label τ}
    (h : firstOverlap ls = some (piece, marked)) (hl : (l, false) ∈ marked) (hc : c ∈ piece) :
    c ∉ l.chars :=
  (CharSet.isEmpty_inter_iff.mp (isEmpty_inter_of_firstOverlap h hl)).2 c hc

theorem pairwise_of_firstOverlap_eq_none (h : firstOverlap ls = none) :
    ls.Pairwise fun l m ↦ (l.chars ∩ m.chars).isEmpty = true := by
  induction ls with
  | nil => exact .nil
  | cons l ls ih =>
    simp only [firstOverlap] at h
    split at h
    · cases h
    · next hnone =>
      exact .cons (isEmpty_inter_of_narrow_unmarked (by simpa using hnone))
        (ih (Option.map_eq_none_iff.mp h))

/-! ## What a cut leaves -/

/-- A character of the piece is in no label any more. -/
theorem targetsOn_cut_of_mem (hc : c ∈ piece)
    (h : ∀ l, (l, false) ∈ marked → c ∉ l.chars) : targetsOn c (cut piece marked) = [] := by
  rw [targetsOn_eq_nil_iff]
  intro l hl
  obtain ⟨⟨m, hit⟩, hm, rfl⟩ := List.mem_map.mp hl
  cases hit with
  | false => exact h m hm
  | true => exact fun hcm ↦ (CharSet.mem_sdiff.mp hcm).2 hc

/-- Any other character stays where it is. -/
theorem targetsOn_cut_of_not_mem (hc : c ∉ piece) :
    targetsOn c (cut piece marked) = targetsOn c (marked.map (·.1)) := by
  have hnot : piece.contains c = false := Bool.not_eq_true _ ▸ hc
  rw [targetsOn, targetsOn, cut, List.filter_map, List.filter_map, List.map_map, List.map_map]
  have hsame : ∀ m ∈ marked,
      ((fun l : Label τ ↦ l.chars.contains c) ∘ fun m : Label τ × Bool ↦
        if m.2 then { m.1 with chars := m.1.chars \ piece } else m.1) m =
      ((fun l : Label τ ↦ l.chars.contains c) ∘ fun m : Label τ × Bool ↦ m.1) m := by
    rintro ⟨l, hit⟩ -
    cases hit with
    | false => rfl
    | true => simp [CharSet.contains_sdiff, hnot]
  rw [List.filter_congr hsame]
  apply List.map_congr_left
  rintro ⟨l, hit⟩ -
  cases hit <;> rfl

theorem mem_hits {t : τ} : t ∈ hits marked ↔ ∃ l, (l, true) ∈ marked ∧ l.target = t := by
  simp only [hits, List.mem_map, List.mem_filter]
  constructor
  · rintro ⟨⟨l, hit⟩, ⟨hl, rfl⟩, rfl⟩
    exact ⟨l, hl, rfl⟩
  · rintro ⟨l, hl, rfl⟩
    exact ⟨(l, true), ⟨hl, rfl⟩, rfl⟩

/-- The piece leads where the labels lead that it was cut from. -/
theorem hits_eq_targetsOn (hmarked : ∀ l hit, (l, hit) ∈ marked → (hit = true ↔ c ∈ l.chars)) :
    hits marked = targetsOn c (marked.map (·.1)) := by
  rw [hits, targetsOn, List.filter_map, List.map_map]
  have hsame : ∀ m ∈ marked,
      m.2 = ((fun l : Label τ ↦ l.chars.contains c) ∘ fun m : Label τ × Bool ↦ m.1) m := by
    rintro ⟨l, hit⟩ hm
    exact Bool.eq_iff_iff.mpr (hmarked l hit hm)
  rw [List.filter_congr hsame]
  rfl

/-- Of labels that lie apart only the one that holds the character gives a target. -/
theorem targetsOn_of_pairwise (h : ls.Pairwise fun l m ↦ (l.chars ∩ m.chars).isEmpty = true)
    {l : Label τ} (hl : l ∈ ls) (hc : c ∈ l.chars) : targetsOn c ls = [l.target] := by
  induction ls with
  | nil => cases hl
  | cons m ls ih =>
    rw [List.pairwise_cons] at h
    have hapart : ∀ k ∈ ls, ¬(c ∈ m.chars ∧ c ∈ k.chars) := fun k hk hck ↦
      CharSet.not_mem_of_isEmpty (h.1 k hk) c (CharSet.mem_inter.mpr hck)
    rcases List.mem_cons.mp hl with rfl | hl
    · rw [targetsOn_cons_of_mem hc, targetsOn_eq_nil_iff.mpr fun k hk hck ↦ hapart k hk ⟨hc, hck⟩]
    · rw [targetsOn_cons_of_not_mem fun hcm ↦ hapart l hl ⟨hcm, hc⟩, ih h.2 hl]

end Label

open Label

section

variable {τ : Type} {ls : List (Label τ)}

/-- An overlap becomes a piece of its own and is cut out of the labels. -/
theorem partition_of_some {piece : CharSet} {marked : List (Label τ × Bool)}
    (h : firstOverlap ls = some (piece, marked)) :
    partition ls = ⟨piece, hits marked⟩ :: partition (cut piece marked) := by
  rw [partition]
  split
  · next h' =>
    cases h.symm.trans h'
    rfl
  · next h' => cases h.symm.trans h'

/-- Without an overlap the labels that are not empty are the pieces. -/
theorem partition_of_none (h : firstOverlap ls = none) :
    partition ls = (ls.filter (!·.chars.isEmpty)).map fun l ↦ ⟨l.chars, [l.target]⟩ := by
  rw [partition]
  split
  · next h' => cases h.symm.trans h'
  · rfl

/-- What is left of the labels at the end becomes one piece for each. -/
theorem targets_leftover (c : Char) (ls : List (Label τ)) :
    (((ls.filter (!·.chars.isEmpty)).map fun l ↦ Piece.mk l.chars [l.target]).filter
      (·.chars.contains c)).map (·.targets) = (targetsOn c ls).map ([·]) := by
  rw [List.filter_map, List.map_map, List.filter_filter, targetsOn, List.map_map]
  have hsame : ∀ l ∈ ls, (((fun p : Piece τ ↦ p.chars.contains c) ∘ fun l : Label τ ↦
      Piece.mk l.chars [l.target]) l && !l.chars.isEmpty) = l.chars.contains c := by
    intro l _
    cases hempty : l.chars.isEmpty with
    | false => simp
    | true =>
      have := CharSet.not_mem_of_isEmpty hempty c
      simpa using Bool.not_eq_true _ ▸ this
  rw [List.filter_congr hsame]
  rfl

end

/-- The target lists of the pieces that hold a character: there is one such piece if there is a
label that holds the character, and else none. -/
theorem targets_partition {τ : Type} (c : Char) (ls : List (Label τ)) :
    ((partition ls).filter (·.chars.contains c)).map (·.targets) =
      if targetsOn c ls = [] then [] else [targetsOn c ls] := by
  induction ls using partition.induct with
  | case1 ls piece marked h ih =>
    obtain ⟨hoverlap, hmap⟩ := overlap_of_firstOverlap h
    have hunmarked : c ∈ piece → ∀ l, (l, false) ∈ marked → c ∉ l.chars := fun hc l hl ↦
      not_mem_of_firstOverlap_unmarked h hl hc
    rw [partition_of_some h, List.filter_cons]
    split
    · next hc =>
      have hmarked : ∀ l hit, (l, hit) ∈ marked → (hit = true ↔ c ∈ l.chars) := by
        intro l hit hl
        cases hit with
        | false => simpa using hunmarked hc l hl
        | true => simpa using (hoverlap.within l hl).mem c hc
      obtain ⟨l, hl⟩ := hoverlap.exists_hit
      have hne : targetsOn c ls ≠ [] := by
        rw [Ne, targetsOn_eq_nil_iff]
        exact fun hnone ↦ hnone l (hmap ▸ List.mem_map_of_mem hl) ((hoverlap.within l hl).mem c hc)
      rw [List.map_cons, ih, targetsOn_cut_of_mem hc (hunmarked hc), if_pos rfl, if_neg hne,
        hits_eq_targetsOn hmarked, hmap]
    · next hc => rw [ih, targetsOn_cut_of_not_mem hc, hmap]
  | case2 ls h =>
    rw [partition_of_none h, targets_leftover]
    split
    · next hnil => rw [hnil, List.map_nil]
    · next hne =>
      obtain ⟨t, ht⟩ := List.exists_mem_of_ne_nil _ hne
      obtain ⟨l, hl, hc, -⟩ := mem_targetsOn.mp ht
      rw [targetsOn_of_pairwise (pairwise_of_firstOverlap_eq_none h) hl hc]
      rfl

/-- The piece that decides about a character, if there is one. -/
theorem find?_partition {τ : Type} (c : Char) (ls : List (Label τ)) :
    ((partition ls).find? (·.chars.contains c)).map (·.targets) =
      if targetsOn c ls = [] then none else some (targetsOn c ls) := by
  rw [← List.head?_filter, ← List.head?_map, targets_partition]
  split <;> rfl

/-! ## Where a piece comes from -/

section

variable {τ : Type} {ls : List (Label τ)} {p : Piece τ}

theorem Label.within_sdiff (s p : CharSet) : Within (s \ p) s :=
  ⟨fun _ h ↦ (CharSet.mem_sdiff.mp h).1, fun h ↦ by rw [negated_sdiff, h]; rfl⟩

/-- A piece lies in a label for each of its targets. -/
theorem exists_within_of_mem_targets {t : τ} (hp : p ∈ partition ls) (ht : t ∈ p.targets) :
    ∃ l ∈ ls, l.target = t ∧ Within p.chars l.chars := by
  induction ls using partition.induct with
  | case1 ls piece marked h ih =>
    obtain ⟨hoverlap, hmap⟩ := overlap_of_firstOverlap h
    rw [partition_of_some h] at hp
    rcases List.mem_cons.mp hp with rfl | hp
    · obtain ⟨l, hl, htarget⟩ := mem_hits.mp ht
      exact ⟨l, hmap ▸ List.mem_map_of_mem hl, htarget, hoverlap.within l hl⟩
    · obtain ⟨l, hl, htarget, hwithin⟩ := ih hp
      obtain ⟨⟨m, hit⟩, hm, rfl⟩ := List.mem_map.mp hl
      refine ⟨m, hmap ▸ List.mem_map_of_mem hm, ?_⟩
      cases hit with
      | false => exact ⟨htarget, hwithin⟩
      | true => exact ⟨htarget, hwithin.trans (within_sdiff ..)⟩
  | case2 ls h =>
    rw [partition_of_none h] at hp
    obtain ⟨l, hl, rfl⟩ := List.mem_map.mp hp
    exact ⟨l, (List.mem_filter.mp hl).1, (List.mem_singleton.mp ht).symm, .refl _⟩

/-- Every piece has a target. -/
theorem targets_ne_nil_of_mem_partition (hp : p ∈ partition ls) : p.targets ≠ [] := by
  induction ls using partition.induct with
  | case1 ls piece marked h ih =>
    rw [partition_of_some h] at hp
    rcases List.mem_cons.mp hp with rfl | hp
    · obtain ⟨l, hl⟩ := (overlap_of_firstOverlap h).1.exists_hit
      exact List.ne_nil_of_mem (mem_hits.mpr ⟨l, hl, rfl⟩)
    · exact ih hp
  | case2 ls h =>
    rw [partition_of_none h] at hp
    obtain ⟨l, -, rfl⟩ := List.mem_map.mp hp
    exact List.cons_ne_nil _ _

/-- The pieces lead nowhere else than the labels. -/
theorem mem_targets_partition {t : τ} (hp : p ∈ partition ls) (ht : t ∈ p.targets) :
    ∃ l ∈ ls, l.target = t := by
  obtain ⟨l, hl, htarget, -⟩ := exists_within_of_mem_targets hp ht
  exact ⟨l, hl, htarget⟩

/-- Every piece lies within one of the labels. -/
theorem exists_within_of_mem_partition (hp : p ∈ partition ls) :
    ∃ l ∈ ls, Within p.chars l.chars := by
  obtain ⟨t, ht⟩ := List.exists_mem_of_ne_nil _ (targets_ne_nil_of_mem_partition hp)
  obtain ⟨l, hl, -, hwithin⟩ := exists_within_of_mem_targets hp ht
  exact ⟨l, hl, hwithin⟩

end

/-! ## No two pieces meet -/

section

variable {τ : Type} {ls : List (Label τ)} {p : Piece τ}

/-- What is left of the labels after a cut is apart from the piece. -/
theorem Label.isEmpty_inter_cut {piece : CharSet} {marked : List (Label τ × Bool)}
    (h : firstOverlap ls = some (piece, marked)) {l : Label τ} (hl : l ∈ cut piece marked) :
    (piece ∩ l.chars).isEmpty = true := by
  obtain ⟨⟨m, hit⟩, hm, rfl⟩ := List.mem_map.mp hl
  cases hit with
  | false => exact isEmpty_inter_of_firstOverlap h hm
  | true =>
    refine CharSet.isEmpty_inter_iff.mpr ⟨?_, fun c hc hcut ↦ (CharSet.mem_sdiff.mp hcut).2 hc⟩
    -- taking a complement away leaves a finite set
    change piece.negated = false ∨ (m.chars \ piece).negated = false
    rw [negated_sdiff]
    cases piece.negated with
    | false => exact .inl rfl
    | true => exact .inr (Bool.and_false _)

theorem isEmpty_of_mem_partition (hp : p ∈ partition ls) : p.chars.isEmpty = false := by
  induction ls using partition.induct with
  | case1 ls piece marked h ih =>
    rw [partition_of_some h] at hp
    rcases List.mem_cons.mp hp with rfl | hp
    · exact (overlap_of_firstOverlap h).1.nonempty
    · exact ih hp
  | case2 ls h =>
    rw [partition_of_none h] at hp
    obtain ⟨l, hl, rfl⟩ := List.mem_map.mp hp
    simpa using (List.mem_filter.mp hl).2

/-- A piece is apart from every later one, as those are made of what the cut left. -/
theorem pairwise_partition (ls : List (Label τ)) :
    (partition ls).Pairwise fun p q ↦ (p.chars ∩ q.chars).isEmpty = true := by
  induction ls using partition.induct with
  | case1 ls piece marked h ih =>
    rw [partition_of_some h]
    refine .cons (fun q hq ↦ ?_) ih
    obtain ⟨l, hl, hwithin⟩ := exists_within_of_mem_partition hq
    have hapart := isEmpty_inter_cut h hl
    rw [CharSet.isEmpty_inter_comm] at hapart ⊢
    exact hwithin.isEmpty_inter hapart
  | case2 ls h =>
    rw [partition_of_none h, List.pairwise_map]
    exact (pairwise_of_firstOverlap_eq_none h).filter _

end

end RegexScan
