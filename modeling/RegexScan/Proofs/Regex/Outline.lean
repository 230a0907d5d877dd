import Mathlib.Data.List.Basic
import RegexScan.Proofs.Text.Quoted
import RegexScan.Regex.Outline

/-!
# An outline tells its tree

The label of a node tells everything but its children.  A line tells its depth, because a label
begins with a brace and the indentation has none, and where it ends, because labels are written
without line breaks.  The children of a node are then the nodes one deeper that follow it, up to
the first that is not deeper.
-/

namespace RegexScan

/-! ## Labels -/

namespace CharSet

/-- Two sets have the same text only if they are the same. -/
theorem text_inj {s t : CharSet} : s.text = t.text ↔ s = t := by
  refine ⟨fun h ↦ ?_, fun h ↦ h ▸ rfl⟩
  obtain ⟨items, negated, _⟩ := s
  obtain ⟨items', negated', _⟩ := t
  cases negated <;> cases negated'
  · obtain rfl := Text.quoted_inj.mp h
    rfl
  · cases (List.cons.inj h).1
  · cases (List.cons.inj h).1
  · obtain rfl := Text.quoted_inj.mp ((List.append_right_inj "not".toList).mp h)
    rfl

theorem newline_not_mem_text (s : CharSet) : '\n' ∉ s.text := by
  intro h
  rcases List.mem_append.mp h with h | h
  · split at h
    · revert h
      decide
    · cases h
  · exact Text.newline_not_mem_quoted s.items h

end CharSet

namespace Regex

/-- Nodes that differ at most in their children. -/
inductive SameNode : Regex → Regex → Prop
  | seq (rs ss : List Regex) : SameNode (.seq rs) (.seq ss)
  | alt (rs ss : List Regex) : SameNode (.alt rs) (.alt ss)
  | star (r s : Regex) : SameNode (.star r) (.star s)
  | set (s : CharSet) : SameNode (.set s) (.set s)
  | empty : SameNode .empty .empty

/-- The character that follows the brace of a label. -/
def mark : Regex → Char
  | .seq _ => 'a'
  | .alt _ => 'o'
  | .star _ => 's'
  | .set s => if s.negated then 'n' else '"'
  | .empty => 'e'

theorem label_set (s : CharSet) : label (.set s) = '\x7b' :: (s.text ++ ":set\x7d".toList) := rfl

theorem exists_label_eq (r : Regex) : ∃ l, label r = '\x7b' :: r.mark :: l := by
  cases r with
  | seq rs => exact ⟨"nd\x7d".toList, rfl⟩
  | alt rs => exact ⟨"r\x7d".toList, rfl⟩
  | star r => exact ⟨"tar\x7d".toList, rfl⟩
  | set s =>
    rw [label_set, mark, CharSet.text]
    cases s.negated with
    | false => exact ⟨_, rfl⟩
    | true => exact ⟨_, rfl⟩
  | empty => exact ⟨"mpty string\x7d".toList, rfl⟩

theorem mark_eq_of_label_eq {r s : Regex} (h : label r = label s) : r.mark = s.mark := by
  obtain ⟨_, hr⟩ := exists_label_eq r
  obtain ⟨_, hs⟩ := exists_label_eq s
  rw [hr, hs] at h
  exact (List.cons.inj (List.cons.inj h).2).1

/-- Nodes with the same label are the same up to their children. -/
theorem sameNode_of_label_eq {r s : Regex} (h : label r = label s) : SameNode r s := by
  have hmark := mark_eq_of_label_eq h
  cases r <;> cases s
  case seq.seq rs ss => exact .seq rs ss
  case alt.alt rs ss => exact .alt rs ss
  case star.star r s => exact .star r s
  case set.set s t =>
    rw [label_set, label_set] at h
    obtain rfl := CharSet.text_inj.mp (List.append_cancel_right (List.cons.inj h).2)
    exact .set s
  case empty.empty => exact .empty
  -- nodes of two kinds have different marks
  all_goals grind [mark]

/-- A label is one line. -/
theorem newline_not_mem_label (r : Regex) : '\n' ∉ label r := by
  cases r with
  | seq rs => change '\n' ∉ "\x7band\x7d".toList; decide
  | alt rs => change '\n' ∉ "\x7bor\x7d".toList; decide
  | star r => change '\n' ∉ "\x7bstar\x7d".toList; decide
  | set s =>
    rw [label_set, List.mem_cons, List.mem_append]
    rintro (h | h | h)
    · cases h
    · exact s.newline_not_mem_text h
    · revert h
      decide
  | empty => change '\n' ∉ "\x7bempty string\x7d".toList; decide

/-! ## Lines -/

/-- What stands in front of a label. -/
def indentation : Nat → List Char
  | 0 => []
  | depth + 1 => List.replicate (3 * depth) ' ' ++ "└─>".toList

theorem length_indentation (depth : Nat) : (indentation depth).length = 3 * depth := by
  cases depth with
  | zero => rfl
  | succ depth =>
    rw [indentation, List.length_append, List.length_replicate]
    rfl

theorem mem_indentation {c : Char} {depth : Nat} (h : c ∈ indentation depth) :
    c ∈ " └─>".toList := by
  cases depth with
  | zero => cases h
  | succ depth =>
    rcases List.mem_append.mp h with h | h
    · obtain rfl := List.eq_of_mem_replicate h
      decide
    · exact List.mem_cons_of_mem _ h

theorem outlineLine_append (depth : Nat) (l rest : List Char) :
    outlineLine (depth, l) ++ rest = (indentation depth ++ l) ++ '\n' :: rest := by
  cases depth <;> exact List.append_assoc ..

theorem newline_not_mem_line (depth : Nat) (r : Regex) : '\n' ∉ indentation depth ++ label r := by
  intro h
  rcases List.mem_append.mp h with h | h
  · exact absurd (mem_indentation h) (by decide)
  · exact newline_not_mem_label r h

/-- What stands in front of the first occurrence of a character, and what stands behind it. -/
theorem eq_of_append_cons_eq {c : Char} {u v x y : List Char} (hx : c ∉ x) (hy : c ∉ y)
    (h : x ++ c :: u = y ++ c :: v) : x = y ∧ u = v := by
  have hlength := congrArg (List.idxOf c) h
  rw [List.idxOf_append_of_notMem hx, List.idxOf_append_of_notMem hy, List.idxOf_cons_self,
    List.idxOf_cons_self] at hlength
  obtain ⟨hfront, hbehind⟩ := List.append_inj h hlength
  exact ⟨hfront, (List.cons.inj hbehind).2⟩

/-- A line tells its depth and its label, and where it ends. -/
theorem outlineLine_append_inj {d e : Nat} {r s : Regex} {u v : List Char}
    (h : outlineLine (d, label r) ++ u = outlineLine (e, label s) ++ v) :
    d = e ∧ label r = label s ∧ u = v := by
  rw [outlineLine_append, outlineLine_append] at h
  obtain ⟨hline, hrest⟩ :=
    eq_of_append_cons_eq (newline_not_mem_line d r) (newline_not_mem_line e s) h
  obtain ⟨l, hr⟩ := exists_label_eq r
  obtain ⟨m, hs⟩ := exists_label_eq s
  have hbrace : ∀ depth, '\x7b' ∉ indentation depth := fun depth hmem ↦
    absurd (mem_indentation hmem) (by decide)
  rw [hr, hs] at hline ⊢
  obtain ⟨hindentation, hlabel⟩ := eq_of_append_cons_eq (hbrace d) (hbrace e) hline
  have hlength := congrArg List.length hindentation
  rw [length_indentation, length_indentation] at hlength
  exact ⟨by omega, by rw [hlabel], hrest⟩

/-! ## Nodes -/

mutual

/-- Every line has the label of some node. -/
theorem exists_label_of_mem_outline (r : Regex) {depth : Nat} {line : Nat × List Char}
    (h : line ∈ r.outline depth) : ∃ s, line.2 = label s := by
  match r with
  | .seq rs =>
    rcases List.mem_cons.mp h with rfl | h
    · exact ⟨.seq rs, rfl⟩
    · exact exists_label_of_mem_outlines rs h
  | .alt rs =>
    rcases List.mem_cons.mp h with rfl | h
    · exact ⟨.alt rs, rfl⟩
    · exact exists_label_of_mem_outlines rs h
  | .star r =>
    rcases List.mem_cons.mp h with rfl | h
    · exact ⟨.star r, rfl⟩
    · exact exists_label_of_mem_outline r h
  | .set s =>
    obtain rfl := List.mem_singleton.mp h
    exact ⟨.set s, rfl⟩
  | .empty =>
    obtain rfl := List.mem_singleton.mp h
    exact ⟨.empty, rfl⟩

/-- Every line of an outline shows the label of some node. -/
theorem exists_label_of_mem_outlines (rs : List Regex) {depth : Nat} {line : Nat × List Char}
    (h : line ∈ outlines depth rs) : ∃ s, line.2 = label s := by
  match rs with
  | [] => cases h
  | r :: rs =>
    rcases List.mem_append.mp h with h | h
    · exact exists_label_of_mem_outline r h
    · exact exists_label_of_mem_outlines rs h

end

/-- Lines go on at a smaller depth, if they go on. -/
def Outside (depth : Nat) (lines : List (Nat × List Char)) : Prop :=
  ∀ line ∈ lines.head?, line.1 < depth

theorem Outside.succ {depth : Nat} {lines : List (Nat × List Char)} (h : Outside depth lines) :
    Outside (depth + 1) lines := fun line hline ↦ Nat.lt_succ_of_lt (h line hline)

/-- An outline begins with the label of its tree. -/
theorem outline_eq_cons (r : Regex) (depth : Nat) :
    ∃ lines, r.outline depth = (depth, label r) :: lines := by
  cases r <;> exact ⟨_, rfl⟩

/-- The outlines of children lie outside the depth below theirs. -/
theorem Outside.outlines {depth : Nat} {lines : List (Nat × List Char)} (h : Outside depth lines)
    (rs : List Regex) : Outside (depth + 1) (outlines depth rs ++ lines) := by
  cases rs with
  | nil => exact h.succ
  | cons r rs =>
    obtain ⟨below, hr⟩ := outline_eq_cons r depth
    rw [Regex.outlines, hr]
    intro line hline
    cases hline
    exact Nat.lt_succ_self depth

/-- Lines outside a depth begin no outline at it. -/
theorem Outside.ne_outline_append {depth : Nat} {lines : List (Nat × List Char)}
    (h : Outside depth lines) (r : Regex) (rest : List (Nat × List Char)) :
    lines ≠ r.outline depth ++ rest := by
  rintro rfl
  obtain ⟨below, hr⟩ := outline_eq_cons r depth
  rw [hr] at h
  exact Nat.lt_irrefl depth (h _ rfl)

mutual

/-- The lines of a tree tell the tree, and where they end. -/
theorem outline_append_inj {r s : Regex} {depth : Nat} {xs ys : List (Nat × List Char)}
    (hxs : Outside (depth + 1) xs) (hys : Outside (depth + 1) ys)
    (h : r.outline depth ++ xs = s.outline depth ++ ys) : r = s ∧ xs = ys := by
  have hsame : SameNode r s := by
    obtain ⟨_, hr⟩ := outline_eq_cons r depth
    obtain ⟨_, hs⟩ := outline_eq_cons s depth
    rw [hr, hs] at h
    exact sameNode_of_label_eq (Prod.mk.inj (List.cons.inj h).1).2
  match r, s, hsame with
  | _, _, .seq rs ss =>
    obtain ⟨rfl, hrest⟩ := outlines_append_inj hxs hys (List.cons.inj h).2
    exact ⟨rfl, hrest⟩
  | _, _, .alt rs ss =>
    obtain ⟨rfl, hrest⟩ := outlines_append_inj hxs hys (List.cons.inj h).2
    exact ⟨rfl, hrest⟩
  | _, _, .star r s =>
    obtain ⟨rfl, hrest⟩ := outline_append_inj hxs.succ hys.succ (List.cons.inj h).2
    exact ⟨rfl, hrest⟩
  | _, _, .set s => exact ⟨rfl, (List.cons.inj h).2⟩
  | _, _, .empty => exact ⟨rfl, (List.cons.inj h).2⟩

/-- The outlines of children can be told from one another and from what follows. -/
theorem outlines_append_inj {rs ss : List Regex} {depth : Nat} {xs ys : List (Nat × List Char)}
    (hxs : Outside depth xs) (hys : Outside depth ys)
    (h : outlines depth rs ++ xs = outlines depth ss ++ ys) : rs = ss ∧ xs = ys := by
  match rs, ss with
  | [], [] => exact ⟨rfl, h⟩
  | [], s :: ss =>
    rw [outlines, outlines, List.append_assoc] at h
    exact absurd h (hxs.ne_outline_append s _)
  | r :: rs, [] =>
    rw [outlines, outlines, List.append_assoc] at h
    exact absurd h.symm (hys.ne_outline_append r _)
  | r :: rs, s :: ss =>
    rw [outlines, outlines, List.append_assoc, List.append_assoc] at h
    obtain ⟨rfl, hlater⟩ := outline_append_inj (hxs.outlines rs) (hys.outlines ss) h
    obtain ⟨rfl, hrest⟩ := outlines_append_inj hxs hys hlater
    exact ⟨rfl, hrest⟩

end

/-- Trees are printed in the same way only if they are the same. -/
theorem text_eq_text_iff {r s : Regex} : r.text = s.text ↔ r = s := by
  refine ⟨fun h ↦ ?_, fun h ↦ h ▸ rfl⟩
  have houtline : r.outline 0 = s.outline 0 := by
    refine Text.eq_of_flatMap_eq ?_ ?_ (fun _ ↦ exists_label_of_mem_outline r)
      (fun _ ↦ exists_label_of_mem_outline s) h
    · rintro ⟨depth, l⟩ hnil
      have happend := outlineLine_append depth l []
      rw [hnil] at happend
      exact List.append_ne_nil_of_right_ne_nil _ (List.cons_ne_nil _ _) happend.symm
    · rintro ⟨d, _⟩ ⟨e, _⟩ u v ⟨r, rfl⟩ ⟨s, rfl⟩ h
      obtain ⟨rfl, hlabel, hrest⟩ := outlineLine_append_inj h
      exact ⟨Prod.ext rfl hlabel, hrest⟩
  have hnone : Outside 1 [] := nofun
  exact (outline_append_inj hnone hnone (congrArg (· ++ []) houtline)).1

end Regex

end RegexScan
