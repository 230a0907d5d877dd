import RegexScan.CharSet.Basic

/-!
# Splitting overlapping labels

Labels may share characters.  They are split into pieces that share none, and each piece leads to
the targets of all labels that it came from.  A piece is cut out of its labels as soon as it is
found, which either turns a complement into a finite set or takes items from a finite one, so the
splitting ends.
-/

namespace RegexScan

/-- A set of characters that lead to a target. -/
structure Label (τ : Type) where
  chars : CharSet
  target : τ
deriving DecidableEq

/-- A set of characters that lead to several targets at once. -/
structure Piece (τ : Type) where
  chars : CharSet
  targets : List τ
deriving DecidableEq

namespace Label

variable {τ : Type}

/-- Narrow a piece down along labels, to its common part with each label that it still meets.
Those labels are marked. -/
def narrow (piece : CharSet) : List (Label τ) → CharSet × List (Label τ × Bool)
  | [] => (piece, [])
  | l :: ls =>
    let common := piece ∩ l.chars
    if common.isEmpty then
      let (final, marked) := narrow piece ls
      (final, (l, false) :: marked)
    else
      let (final, marked) := narrow common ls
      (final, (l, true) :: marked)

/-- The piece for the first label that meets a later one, and all labels, those that hold the piece
marked. -/
def firstOverlap : List (Label τ) → Option (CharSet × List (Label τ × Bool))
  | [] => none
  | l :: ls =>
    let (piece, marked) := narrow l.chars ls
    if marked.any (·.2) then some (piece, (l, true) :: marked)
    else (firstOverlap ls).map fun (piece, marked) ↦ (piece, (l, false) :: marked)

/-- Take a piece from the marked labels. -/
def cut (piece : CharSet) (marked : List (Label τ × Bool)) : List (Label τ) :=
  marked.map fun (l, hit) ↦ if hit then { l with chars := l.chars \ piece } else l

/-- The targets of the marked labels. -/
def hits (marked : List (Label τ × Bool)) : List τ :=
  (marked.filter (·.2)).map (·.1.target)

/-! ## Every cut makes the labels smaller -/

/-- The sum of a measure over the sets of labels. -/
def total (f : CharSet → Nat) : List (Label τ) → Nat
  | [] => 0
  | l :: ls => f l.chars + total f ls

/-- How many labels are complements. -/
def complements (ls : List (Label τ)) : Nat := total (·.negated.toNat) ls

/-- How many items a set lists, unless it is a complement. -/
def finiteItems (s : CharSet) : Nat := if s.negated then 0 else s.items.length

/-- How many items the other labels list. -/
def listed (ls : List (Label τ)) : Nat := total finiteItems ls

/-- A part of a set as far as its size matters: a finite set has finite parts. -/
structure Within (p s : CharSet) : Prop where
  mem : ∀ c ∈ p, c ∈ s
  finite : s.negated = false → p.negated = false

theorem Within.refl (s : CharSet) : Within s s := ⟨fun _ h ↦ h, id⟩

theorem Within.trans {p q s : CharSet} (h : Within p q) (h' : Within q s) : Within p s :=
  ⟨fun c hc ↦ h'.mem c (h.mem c hc), fun hs ↦ h.finite (h'.finite hs)⟩

/-- An intersection is a complement if both sets are. -/
theorem negated_inter (p s : CharSet) : (p ∩ s).negated = (p.negated && s.negated) := by
  change (CharSet.inter p s).negated = _
  unfold CharSet.inter
  split <;> next hp hs => rw [hp, hs]; rfl

theorem within_inter_left (p s : CharSet) : Within (p ∩ s) p where
  mem _ hc := (CharSet.mem_inter.mp hc).1
  finite hp := by rw [negated_inter, hp, Bool.false_and]

theorem within_inter_right (p s : CharSet) : Within (p ∩ s) s where
  mem _ hc := (CharSet.mem_inter.mp hc).2
  finite hs := by rw [negated_inter, hs, Bool.and_false]

/-- A label that is not marked is none of the marked ones. -/
theorem hit_mem_cons_iff {l m : Label τ} {marked : List (Label τ × Bool)} :
    (m, true) ∈ (l, false) :: marked ↔ (m, true) ∈ marked := by
  rw [List.mem_cons, or_iff_right]
  intro heq
  cases heq

/-- What narrowing a piece gives: the final piece lies in the first one and in every marked label,
it is not empty if the first one is not, and it is a complement only if all of them are. -/
structure Narrowed (piece final : CharSet) (marked : List (Label τ × Bool)) : Prop where
  within : Within final piece
  within_hit : ∀ l, (l, true) ∈ marked → Within final l.chars
  nonempty : piece.isEmpty = false ∨ marked.any (·.2) → final.isEmpty = false
  finite : final.negated = false →
    piece.negated = false ∨ ∃ l, (l, true) ∈ marked ∧ l.chars.negated = false

/-- Narrowing a piece through a list keeps it within every label that is marked. -/
theorem narrowed_narrow (piece : CharSet) (ls : List (Label τ)) :
    Narrowed piece (narrow piece ls).1 (narrow piece ls).2 := by
  induction ls generalizing piece with
  | nil =>
    exact ⟨.refl _, fun _ hm ↦ absurd hm List.not_mem_nil,
      fun h ↦ h.resolve_right Bool.false_ne_true, .inl⟩
  | cons l ls ih =>
    rw [narrow]
    split
    · -- the piece and the label have nothing in common
      have h := ih piece
      refine ⟨h.within, fun m hm ↦ h.within_hit m (hit_mem_cons_iff.mp hm), h.nonempty, ?_⟩
      intro hfinite
      refine (h.finite hfinite).imp_right ?_
      rintro ⟨m, hm, hfinite⟩
      exact ⟨m, .tail _ hm, hfinite⟩
    · next hcommon =>
      have h := ih (piece ∩ l.chars)
      have hnonempty := h.nonempty (.inl (eq_false_of_ne_true hcommon))
      refine ⟨h.within.trans (within_inter_left ..), ?_, fun _ ↦ hnonempty, ?_⟩
      · intro m hm
        rcases List.mem_cons.mp hm with heq | hm
        · cases heq
          exact h.within.trans (within_inter_right ..)
        · exact h.within_hit m hm
      · intro hfinite
        rcases h.finite hfinite with hinter | ⟨m, hm, hfinite⟩
        · rw [negated_inter, Bool.and_eq_false_iff] at hinter
          exact hinter.imp_right fun hl ↦ ⟨l, List.mem_cons_self, hl⟩
        · exact .inr ⟨m, .tail _ hm, hfinite⟩

/-- Narrowing marks labels and leaves them as they are. -/
theorem map_fst_narrow (piece : CharSet) (ls : List (Label τ)) :
    (narrow piece ls).2.map (·.1) = ls := by
  induction ls generalizing piece with
  | nil => rfl
  | cons l ls ih =>
    rw [narrow]
    split
    · exact congrArg (l :: ·) (ih piece)
    · exact congrArg (l :: ·) (ih (piece ∩ l.chars))

/-- A found overlap lies in every marked label, is not empty, and is a complement only if all marked
labels are; some label is marked. -/
structure Overlap (piece : CharSet) (marked : List (Label τ × Bool)) : Prop where
  within : ∀ l, (l, true) ∈ marked → Within piece l.chars
  nonempty : piece.isEmpty = false
  exists_hit : ∃ l, (l, true) ∈ marked
  finite : piece.negated = false → ∃ l, (l, true) ∈ marked ∧ l.chars.negated = false

/-- What is found is an overlap, and the labels stay as they are. -/
theorem overlap_of_firstOverlap {ls : List (Label τ)} {piece : CharSet}
    {marked : List (Label τ × Bool)} (h : firstOverlap ls = some (piece, marked)) :
    Overlap piece marked ∧ marked.map (·.1) = ls := by
  induction ls generalizing piece marked with
  | nil => cases h
  | cons l ls ih =>
    simp only [firstOverlap] at h
    split at h
    · next hhits =>
      cases h
      have hnarrowed := narrowed_narrow l.chars ls
      refine ⟨⟨?_, hnarrowed.nonempty (.inr hhits), ⟨l, List.mem_cons_self⟩, ?_⟩,
        congrArg (l :: ·) (map_fst_narrow l.chars ls)⟩
      · intro m hm
        rcases List.mem_cons.mp hm with heq | hm
        · cases heq
          exact hnarrowed.within
        · exact hnarrowed.within_hit m hm
      · intro hfinite
        rcases hnarrowed.finite hfinite with hl | ⟨m, hm, hfinite⟩
        · exact ⟨l, List.mem_cons_self, hl⟩
        · exact ⟨m, .tail _ hm, hfinite⟩
    · obtain ⟨⟨piece', marked'⟩, hrec, heq⟩ := Option.map_eq_some_iff.mp h
      cases heq
      obtain ⟨hoverlap, hmap⟩ := ih hrec
      obtain ⟨m, hm⟩ := hoverlap.exists_hit
      refine ⟨⟨fun m hm ↦ hoverlap.within m (hit_mem_cons_iff.mp hm), hoverlap.nonempty,
        ⟨m, .tail _ hm⟩, ?_⟩, congrArg (l :: ·) hmap⟩
      intro hfinite
      obtain ⟨n, hn, hfinite⟩ := hoverlap.finite hfinite
      exact ⟨n, .tail _ hn, hfinite⟩

/-- A difference is a complement if the first set is one and the second is none. -/
theorem negated_sdiff (s p : CharSet) : (s \ p).negated = (s.negated && !p.negated) := by
  change (CharSet.diff s p).negated = _
  unfold CharSet.diff
  split <;> next hs hp => rw [hs, hp]; rfl

/-- Taking a part that is not empty from a finite set leaves fewer items. -/
theorem length_items_sdiff_lt {s p : CharSet} (h : Within p s) (hs : s.negated = false)
    (hp : p.isEmpty = false) : (s \ p).items.length < s.items.length := by
  have hfinite := h.finite hs
  have hne : p.items ≠ [] := by
    rw [CharSet.isEmpty, hfinite, Bool.not_false, Bool.true_and] at hp
    rintro hnil
    rw [hnil] at hp
    cases hp
  obtain ⟨c, hc⟩ := List.exists_mem_of_ne_nil _ hne
  have hcs : c ∈ s.items :=
    (CharSet.mem_iff_mem_items hs).mp (h.mem c ((CharSet.mem_iff_mem_items hfinite).mpr hc))
  have hitems : (s \ p).items = s.items.filter (!p.items.contains ·) := by
    change (CharSet.diff s p).items = _
    rw [CharSet.diff, hs, hfinite]
    exact Ascending.diff_eq_filter s.ascending p.ascending
  rw [hitems, List.length_filter_lt_length_iff_exists]
  refine ⟨c, hcs, ?_⟩
  rw [Bool.not_eq_true, Bool.not_eq_false', List.contains_iff_mem]
  exact hc

/-- A cut that raises the measure of no marked label does not raise the total. -/
theorem total_cut_le {f : CharSet → Nat} {piece : CharSet} {marked : List (Label τ × Bool)}
    (h : ∀ l, (l, true) ∈ marked → f (l.chars \ piece) ≤ f l.chars) :
    total f (cut piece marked) ≤ total f (marked.map (·.1)) := by
  induction marked with
  | nil => exact Nat.le_refl 0
  | cons m marked ih =>
    obtain ⟨l, hit⟩ := m
    refine Nat.add_le_add ?_ (ih fun n hn ↦ h n (.tail _ hn))
    cases hit with
    | false => exact Nat.le_refl _
    | true => exact h l List.mem_cons_self

/-- It lowers the total if it lowers the measure of some marked label. -/
theorem total_cut_lt {f : CharSet → Nat} {piece : CharSet} {marked : List (Label τ × Bool)}
    (h : ∀ l, (l, true) ∈ marked → f (l.chars \ piece) ≤ f l.chars)
    (hlt : ∃ l, (l, true) ∈ marked ∧ f (l.chars \ piece) < f l.chars) :
    total f (cut piece marked) < total f (marked.map (·.1)) := by
  induction marked with
  | nil =>
    obtain ⟨l, hl, -⟩ := hlt
    exact absurd hl List.not_mem_nil
  | cons m marked ih =>
    obtain ⟨l, hit⟩ := m
    have htail : ∀ n, (n, true) ∈ marked → f (n.chars \ piece) ≤ f n.chars :=
      fun n hn ↦ h n (.tail _ hn)
    obtain ⟨n, hn, hlt⟩ := hlt
    rcases List.mem_cons.mp hn with heq | hn
    · cases heq
      exact Nat.add_lt_add_of_lt_of_le hlt (total_cut_le htail)
    · refine Nat.add_lt_add_of_le_of_lt ?_ (ih htail ⟨n, hn, hlt⟩)
      cases hit with
      | false => exact Nat.le_refl _
      | true => exact h l List.mem_cons_self

/-- Cutting a complement out of labels that are complements leaves fewer of these. -/
theorem complements_cut_lt {piece : CharSet} {marked : List (Label τ × Bool)}
    (o : Overlap piece marked) (hpiece : piece.negated = true) :
    complements (cut piece marked) < complements (marked.map (·.1)) := by
  have hcut : ∀ l, (l, true) ∈ marked →
      (l.chars \ piece).negated.toNat < l.chars.negated.toNat := by
    intro l hl
    have hl : l.chars.negated = true := by
      cases hfinite : l.chars.negated with
      | true => rfl
      | false => exact nomatch hpiece.symm.trans ((o.within l hl).finite hfinite)
    rw [negated_sdiff, hl, hpiece]
    exact Nat.zero_lt_one
  obtain ⟨l, hl⟩ := o.exists_hit
  exact total_cut_lt (fun m hm ↦ Nat.le_of_lt (hcut m hm)) ⟨l, hl, hcut l hl⟩

/-- Cutting a finite piece out of labels makes no complement. -/
theorem complements_cut_le (piece : CharSet) (marked : List (Label τ × Bool)) :
    complements (cut piece marked) ≤ complements (marked.map (·.1)) := by
  refine total_cut_le fun l _ ↦ ?_
  rw [negated_sdiff]
  cases l.chars.negated with
  | false => exact Nat.le_refl 0
  | true => exact Bool.toNat_le _

/-- Cutting a finite piece out of labels leaves fewer items in those that are finite. -/
theorem listed_cut_lt {piece : CharSet} {marked : List (Label τ × Bool)}
    (o : Overlap piece marked) (hpiece : piece.negated = false) :
    listed (cut piece marked) < listed (marked.map (·.1)) := by
  have hfinite : ∀ l, (l, true) ∈ marked → l.chars.negated = false →
      finiteItems (l.chars \ piece) < finiteItems l.chars := by
    intro l hl hn
    have hcut : (l.chars \ piece).negated = false := by rw [negated_sdiff, hn, Bool.false_and]
    rw [finiteItems, finiteItems, hcut, hn]
    exact length_items_sdiff_lt (o.within l hl) hn o.nonempty
  obtain ⟨l, hl, hn⟩ := o.finite hpiece
  refine total_cut_lt (fun m hm ↦ ?_) ⟨l, hl, hfinite l hl hn⟩
  cases hm' : m.chars.negated with
  | false => exact Nat.le_of_lt (hfinite m hm hm')
  | true =>
    have hcut : (m.chars \ piece).negated = true := by
      rw [negated_sdiff, hm', hpiece, Bool.not_false, Bool.and_true]
    rw [finiteItems, hcut]
    exact Nat.zero_le _

/-- A cut leaves fewer complements, or as many and fewer items in the other labels. -/
theorem measure_cut {piece : CharSet} {marked : List (Label τ × Bool)}
    (o : Overlap piece marked) :
    Prod.Lex (· < ·) (· < ·) (complements (cut piece marked), listed (cut piece marked))
      (complements (marked.map (·.1)), listed (marked.map (·.1))) := by
  cases hpiece : piece.negated with
  | true => exact .left _ _ (complements_cut_lt o hpiece)
  | false =>
    rcases Nat.lt_or_eq_of_le (complements_cut_le piece marked) with hlt | heq
    · exact .left _ _ hlt
    · rw [heq]
      exact .right _ (listed_cut_lt o hpiece)

end Label

open Label in
/-- Disjoint pieces that cover all labels: overlaps are cut out one by one, and what is left of each
label is a piece of its own. -/
def partition {τ : Type} (ls : List (Label τ)) : List (Piece τ) :=
  match _h : firstOverlap ls with
  | some (piece, marked) => ⟨piece, hits marked⟩ :: partition (cut piece marked)
  | none => (ls.filter (!·.chars.isEmpty)).map fun l ↦ ⟨l.chars, [l.target]⟩
termination_by (complements ls, listed ls)
decreasing_by
  obtain ⟨hoverlap, hmap⟩ := overlap_of_firstOverlap _h
  have hmeasure := measure_cut hoverlap
  rwa [hmap] at hmeasure

end RegexScan
