import RegexScan.Proofs.Pattern.Kinds

/-!
# Every tree has a pattern

A tree is written with groups around its sequences, alternations and stars, and with a backslash in
front of every character that would be an operator.  Nothing depends on what stands beside a term
written this way, so a term is read back wherever it stands.
-/

namespace RegexScan

/-! ## Writing -/

/-- A character that stands for itself wherever it is written. -/
def Pattern.escape (c : Char) : List Char :=
  if c ∈ ['(', ')', '[', ']', '|', '*', '^', '-', '\\'] then ['\\', c] else [c]

/-- A set as a character class that lists its items. -/
def CharSet.written (s : CharSet) : List Char :=
  '[' :: (if s.negated then ['^'] else []) ++ s.items.flatMap Pattern.escape ++ [']']

namespace Regex

mutual

/-- A tree as a term. -/
def written : Regex → List Char
  | .seq rs => '(' :: writtenTerms rs ++ [')']
  | .alt rs => '(' :: writtenBranches rs ++ [')']
  | .star r => '(' :: r.written ++ ['*', ')']
  | .set s => s.written
  | .empty => ['\\', 'e']

def writtenTerms : List Regex → List Char
  | [] => []
  | r :: rs => r.written ++ writtenTerms rs

def writtenBranches : List Regex → List Char
  | [] => []
  | r :: rs => r.written ++ writtenBehindBars rs

/-- Further branches, each behind its bar. -/
def writtenBehindBars : List Regex → List Char
  | [] => []
  | r :: rs => '|' :: r.written ++ writtenBehindBars rs

end

/-- A pattern for a tree. -/
def toPattern (r : Regex) : String := String.ofList r.written

end Regex

namespace Pattern

/-! ## The tokens of what is written -/

/-- A text consists of such tokens, whatever stands behind it. -/
def Spells (p : List Char) (w : List TokenKind) : Prop := ∀ q, kinds (p ++ q) = w ++ kinds q

section

variable {p q : List Char} {v w : List TokenKind}

theorem Spells.nil : Spells [] [] := fun _ ↦ rfl

theorem Spells.append (hp : Spells p v) (hq : Spells q w) : Spells (p ++ q) (v ++ w) := by
  intro rest
  rw [List.append_assoc, hp, hq, List.append_assoc]

theorem Spells.cons {k : TokenKind} {c : Char} (hc : c ≠ '\\') (hk : plain c = k)
    (h : Spells p w) : Spells (c :: p) (k :: w) := by
  intro rest
  rw [List.cons_append, kinds_cons hc, hk, h, List.cons_append]

/-- A spelling stands for its tokens when nothing follows. -/
theorem Spells.kinds_eq (h : Spells p w) : kinds p = w := by
  have hnil := h []
  rwa [List.append_nil, show kinds [] = [] from rfl, List.append_nil] at hnil

/-- An escaped character is read as a character. -/
theorem spells_escape (c : Char) : Spells (escape c) [.char c] := by
  intro rest
  unfold escape
  split
  · next hc =>
    have hescaped : escaped c = .char c := by
      simp only [List.mem_cons, List.not_mem_nil, or_false] at hc
      rcases hc with rfl | rfl | rfl | rfl | rfl | rfl | rfl | rfl | rfl <;> rfl
    rw [List.cons_append, List.singleton_append, kinds_escape, hescaped, List.singleton_append]
  · next hc =>
    have hplain : plain c = .char c := by
      unfold plain
      rw [if_neg]
      exact fun h ↦ hc (List.mem_append_left ['\\'] h)
    have hne : c ≠ '\\' := by
      rintro rfl
      exact hc (by decide)
    exact Spells.cons hne hplain .nil rest

theorem spells_flatMap_escape (cs : List Char) : Spells (cs.flatMap escape) (cs.map .char) := by
  induction cs with
  | nil => exact .nil
  | cons c cs ih => exact (spells_escape c).append ih

end

/-! ## Reading a class -/

theorem head?_map_char_ne (cs : List Char) (c : Char) :
    (cs.map TokenKind.char).head? ≠ some (.operator c) := by
  cases cs <;> nofun

theorem isItems_map_char (cs : List Char) : IsItems (cs.map .char) cs := by
  induction cs with
  | nil => exact .nil
  | cons c cs ih => exact .single (.char c) (head?_map_char_ne cs '-') ih

/-- The items of a class are read back, and so is its sign. -/
theorem exists_isTerm_set (s : CharSet) : ∃ w, Spells s.written w ∧ IsTerm w (.set s) := by
  have hitems := (spells_flatMap_escape s.items).append
    (.cons (by decide) rfl .nil : Spells [']'] _)
  have hread := isItems_map_char s.items
  rw [CharSet.written]
  cases hs : s.negated with
  | false =>
    have hclass := IsClass.listed (head?_map_char_ne s.items '^') hread
    rw [← CharSet.eq_ofList_items hs] at hclass
    exact ⟨_, .cons (by decide) rfl hitems, .charClass hclass⟩
  | true =>
    have hclass := IsClass.negated hread
    rw [← CharSet.eq_compl_ofList_items hs] at hclass
    exact ⟨_, .cons (by decide) rfl (.cons (by decide) rfl hitems), .charClass hclass⟩

/-! ## Reading a tree -/

/-- A term, starred or not, is an expression. -/
theorem IsRep.isExpr {w : List TokenKind} {r : Regex} (h : IsRep w r) : IsExpr w r := by
  have hexpr := IsExpr.branches (.singleton h) (List.cons_ne_nil r []) .nil
  rwa [List.append_nil] at hexpr

/-- An expression in parentheses is a term. -/
theorem Spells.group {p : List Char} {w : List TokenKind} {r : Regex} (hp : Spells p w)
    (h : IsExpr w r) : ∃ w, Spells ('(' :: p ++ [')']) w ∧ IsTerm w r :=
  ⟨_, .append (.cons (by decide) rfl hp) (.cons (by decide) rfl .nil), .group h⟩

mutual

/-- What is written for a tree is a term of the same tree. -/
theorem exists_isTerm_written (r : Regex) (h : r.Branching) :
    ∃ w, Spells r.written w ∧ IsTerm w r := by
  match r, h with
  | .seq rs, ⟨hlength, hall⟩ =>
    obtain ⟨w, hspells, hreps⟩ := exists_isReps_written rs hall
    have hne : rs ≠ [] := List.ne_nil_of_length_pos (Nat.lt_of_succ_lt hlength)
    have hexpr := IsExpr.branches hreps hne .nil
    rw [List.append_nil, ofTerms_of_two_le hlength] at hexpr
    exact hspells.group hexpr
  | .alt (r :: rs), ⟨hlength, hr, hall⟩ =>
    obtain ⟨v, hfirst, hterm⟩ := exists_isTerm_written r hr
    obtain ⟨w, hrest, hbranches⟩ := exists_isBranches_written rs hall
    have hexpr := IsExpr.branches (.singleton (.once hterm)) (List.cons_ne_nil r []) hbranches
    rw [ofTerms, ofBranches_of_two_le hlength] at hexpr
    exact (hfirst.append hrest).group hexpr
  | .star r, h =>
    obtain ⟨w, hspells, hterm⟩ := exists_isTerm_written r h
    have hstar := hspells.append (.cons (by decide) rfl .nil : Spells ['*'] [.operator '*'])
    have hgroup := hstar.group (IsRep.star hterm).isExpr
    rwa [List.cons_append, List.append_assoc] at hgroup
  | .set s, _ => exact exists_isTerm_set s
  | .empty, _ => exact ⟨[.emptyString], kinds_escape 'e', .empty⟩

/-- The written terms of a sequence derive its trees. -/
theorem exists_isReps_written (rs : List Regex) (h : Regex.AllBranching rs) :
    ∃ w, Spells (Regex.writtenTerms rs) w ∧ IsReps w rs := by
  match rs, h with
  | [], _ => exact ⟨[], .nil, .nil⟩
  | r :: rs, ⟨hr, hall⟩ =>
    obtain ⟨v, hfirst, hterm⟩ := exists_isTerm_written r hr
    obtain ⟨w, hrest, hreps⟩ := exists_isReps_written rs hall
    exact ⟨_, hfirst.append hrest, .cons (.once hterm) hreps⟩

/-- The written branches of an alternative derive its trees. -/
theorem exists_isBranches_written (rs : List Regex) (h : Regex.AllBranching rs) :
    ∃ w, Spells (Regex.writtenBehindBars rs) w ∧ IsBranches w rs := by
  match rs, h with
  | [], _ => exact ⟨[], .nil, .nil⟩
  | r :: rs, ⟨hr, hall⟩ =>
    obtain ⟨v, hfirst, hterm⟩ := exists_isTerm_written r hr
    obtain ⟨w, hrest, hbranches⟩ := exists_isBranches_written rs hall
    exact ⟨_, .append (.cons (by decide) rfl hfirst) hrest,
      .cons (.singleton (.once hterm)) hbranches⟩

end

/-- A tree without a sequence or an alternation of fewer than two is read back from the pattern that
is written for it.  No other tree has any pattern. -/
theorem parse_toPattern (r : Regex) :
    (parse r.toPattern = .ok r ↔ r.Branching) ∧ ((∃ p, parse p = .ok r) ↔ r.Branching) := by
  have hwritten : r.Branching → parse r.toPattern = .ok r := by
    intro h
    obtain ⟨w, hspells, hterm⟩ := exists_isTerm_written r h
    rw [parse_eq_ok_iff, Regex.toPattern, String.toList_ofList, hspells.kinds_eq]
    exact (IsRep.once hterm).isExpr
  have hbranching : ∀ p, parse p = .ok r → r.Branching := fun p hp ↦
    (parse_eq_ok_iff.mp hp).branching
  exact ⟨⟨hbranching _, hwritten⟩, fun ⟨p, hp⟩ ↦ hbranching p hp, fun h ↦ ⟨_, hwritten h⟩⟩

/-- A star of a star, an alternation in an alternation, and items that must be escaped beside items
that must not. -/
example : (Regex.alt [.star (.star (.literal 's')),
      .alt [.empty, .set (CharSet.ofList ['^', ']', 'n', '\\']).compl]]).toPattern =
    "((([s]*)*)|(\\e|[^\\\\\\]\\^n]))" := by
  cbv

end Pattern

end RegexScan
