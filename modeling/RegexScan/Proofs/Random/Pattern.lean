import Mathlib.Tactic.IntervalCases
import RegexScan.Fuzz
import RegexScan.Proofs.Effects
import RegexScan.Proofs.Pattern.Written

/-!
# Random patterns are well formed

Whatever the dice say, every part of a random pattern is spelled as the grammar wants it, provided
that the alphabet has no character that could mean something else.  A caret and a dash may be in
the alphabet, because a class takes them at every place.
-/

namespace RegexScan

/-! ## Spelling -/

namespace Pattern

/-- A text is spelled as the grammar wants it. -/
def Spelled {α : Type} (derives : List TokenKind → α → Prop) (p : List Char) : Prop :=
  ∃ w a, Spells p w ∧ derives w a

/-- A character that is a token of its own and not an operator outside of classes. -/
def Harmless (c : Char) : Prop := c ∉ ['(', ')', '[', ']', '|', '*', '\\']

section

variable {p : List Char}

theorem Harmless.ne_backslash {c : Char} (h : Harmless c) : c ≠ '\\' := by
  rintro rfl
  exact h (by decide)

/-- A harmless character is read as itself. -/
theorem Harmless.isLiteral {c : Char} (h : Harmless c) : IsLiteral (plain c) c := by
  unfold plain
  split
  · next hc =>
    have hcases : c = '^' ∨ c = '-' := by
      simp only [Harmless, List.mem_cons, List.not_mem_nil, or_false, not_or] at h hc
      tauto
    rcases hcases with rfl | rfl
    · exact .caret
    · exact .dash
  · exact .char c

theorem harmless_caret : Harmless '^' := by
  unfold Harmless
  decide

theorem harmless_dash : Harmless '-' := by
  unfold Harmless
  decide

/-- Harmless characters are tokens by themselves. -/
theorem spells_map_plain (h : ∀ c ∈ p, Harmless c) : Spells p (p.map plain) := by
  induction p with
  | nil => exact .nil
  | cons c p ih =>
    rw [List.forall_mem_cons] at h
    exact .cons h.1.ne_backslash rfl (ih h.2)

/-! ### Classes -/

/-- Literals can be the items of a class in any order. -/
theorem exists_isItems (w : List TokenKind) (h : ∀ k ∈ w, ∃ c, IsLiteral k c) :
    ∃ cs, IsItems w cs := by
  match w with
  | [] => exact ⟨[], .nil⟩
  | [k] =>
    obtain ⟨c, hk⟩ := h k List.mem_cons_self
    exact ⟨_, .single hk nofun .nil⟩
  | k :: l :: w =>
    rw [List.forall_mem_cons, List.forall_mem_cons] at h
    obtain ⟨⟨c, hk⟩, hl, hw⟩ := h
    by_cases hdash : l = .operator '-'
    · subst hdash
      match w with
      | [] => exact ⟨_, .dangling hk⟩
      | m :: w =>
        rw [List.forall_mem_cons] at hw
        obtain ⟨⟨d, hm⟩, hw⟩ := hw
        obtain ⟨cs, hitems⟩ := exists_isItems w hw
        exact ⟨_, .range hk hm hitems⟩
    · obtain ⟨cs, hitems⟩ := exists_isItems (l :: w) (List.forall_mem_cons.mpr ⟨hl, hw⟩)
      exact ⟨_, .single hk (fun hhead ↦ hdash (Option.some.inj hhead)) hitems⟩

/-- Any literals between brackets are a class. -/
theorem exists_isClass {w : List TokenKind} (h : ∀ k ∈ w, ∃ c, IsLiteral k c) :
    ∃ s, IsClass w s := by
  by_cases hcaret : w.head? = some (.operator '^')
  · obtain ⟨w, rfl⟩ := List.head?_eq_some_iff.mp hcaret
    obtain ⟨cs, hitems⟩ := exists_isItems w (List.forall_mem_cons.mp h).2
    exact ⟨_, .negated hitems⟩
  · obtain ⟨cs, hitems⟩ := exists_isItems w h
    exact ⟨_, .listed hcaret hitems⟩

/-- Harmless characters between brackets are a term. -/
theorem spelled_charClass (h : ∀ c ∈ p, Harmless c) : Spelled IsTerm ('[' :: p ++ [']']) := by
  have hliteral : ∀ k ∈ p.map plain, ∃ c, IsLiteral k c := by
    intro k hk
    obtain ⟨c, hc, rfl⟩ := List.mem_map.mp hk
    exact ⟨c, (h c hc).isLiteral⟩
  obtain ⟨s, hclass⟩ := exists_isClass hliteral
  refine ⟨_, _, ?_, .charClass hclass⟩
  exact .append (.cons (by decide) rfl (spells_map_plain h)) (.cons (by decide) rfl .nil)

/-! ### Sequences and alternatives -/

theorem spelled_literal {c : Char} (h : Harmless c) : Spelled IsTerm [c] :=
  ⟨_, _, .cons h.ne_backslash rfl .nil, .literal h.isLiteral⟩

theorem spelled_empty : Spelled IsTerm ['\\', 'e'] :=
  ⟨[.emptyString], .empty, kinds_escape 'e', .empty⟩

theorem Spelled.group (h : Spelled IsExpr p) : Spelled IsTerm ('(' :: p ++ [')']) := by
  obtain ⟨w, r, hspells, hexpr⟩ := h
  obtain ⟨w, hspells, hterm⟩ := hspells.group hexpr
  exact ⟨w, r, hspells, hterm⟩

theorem Spelled.once (h : Spelled IsTerm p) : Spelled IsRep p := by
  obtain ⟨w, r, hspells, hterm⟩ := h
  exact ⟨w, r, hspells, .once hterm⟩

theorem Spelled.star (h : Spelled IsTerm p) : Spelled IsRep (p ++ ['*']) := by
  obtain ⟨w, r, hspells, hterm⟩ := h
  exact ⟨_, _, hspells.append (.cons (by decide) rfl .nil), .star hterm⟩

/-- Terms in a row. -/
theorem exists_isReps_flatten {ps : List (List Char)} (h : ∀ p ∈ ps, Spelled IsRep p) :
    ∃ w rs, Spells ps.flatten w ∧ IsReps w rs ∧ rs.length = ps.length := by
  induction ps with
  | nil => exact ⟨[], [], .nil, .nil, rfl⟩
  | cons p ps ih =>
    rw [List.forall_mem_cons] at h
    obtain ⟨⟨v, r, hfirst, hrep⟩, hrest⟩ := h
    obtain ⟨w, rs, hspells, hreps, hlength⟩ := ih hrest
    exact ⟨_, _, hfirst.append hspells, .cons hrep hreps, congrArg (· + 1) hlength⟩

/-- Alternatives behind their bars. -/
theorem spelled_branches {ps : List (List Char)} (h : ∀ p ∈ ps, Spelled IsReps p) :
    Spelled IsBranches (ps.flatMap ('|' :: ·)) := by
  induction ps with
  | nil => exact ⟨[], [], .nil, .nil⟩
  | cons p ps ih =>
    rw [List.forall_mem_cons] at h
    obtain ⟨⟨v, rs, hfirst, hreps⟩, hrest⟩ := h
    obtain ⟨w, bs, hspells, hbranches⟩ := ih hrest
    exact ⟨_, _, (Spells.cons (by decide) rfl hfirst).append hspells, .cons hreps hbranches⟩

/-- Texts with bars between them are the first and then a bar in front of each of the others. -/
theorem intercalate_bar (p : List Char) (ps : List (List Char)) :
    ['|'].intercalate (p :: ps) = p ++ ps.flatMap ('|' :: ·) := by
  induction ps generalizing p with
  | nil => simp
  | cons q ps ih => rw [List.intercalate_cons_cons, ih]; simp

/-- Terms in a row, and at least one of them. -/
def IsSequence (w : List TokenKind) (rs : List Regex) : Prop := IsReps w rs ∧ rs ≠ []

/-- Texts of terms with bars between them are an expression. -/
theorem Spelled.branches {ps : List (List Char)} (h : Spelled IsSequence p)
    (hs : ∀ q ∈ ps, Spelled IsReps q) : Spelled IsExpr (['|'].intercalate (p :: ps)) := by
  obtain ⟨v, rs, hfirst, hreps, hne⟩ := h
  obtain ⟨w, bs, hspells, hbranches⟩ := spelled_branches hs
  rw [intercalate_bar]
  exact ⟨_, _, hfirst.append hspells, .branches hreps hne hbranches⟩

/-- What is spelled as an expression parses. -/
theorem Spelled.isOk (h : Spelled IsExpr p) : ∃ r, parse (String.ofList p) = .ok r := by
  obtain ⟨w, r, hspells, hexpr⟩ := h
  refine ⟨r, parse_eq_ok_iff.mpr ?_⟩
  rwa [String.toList_ofList, hspells.kinds_eq]

end

end Pattern

/-! ## Rolling -/

/-- What a stateful computation always returns it returns from each state. -/
theorem Always.fst {σ α : Type} {p : α → Prop} {x : StateM σ α} (h : Always p x) (s : σ) :
    p (x s).1 := by
  obtain ⟨y, rfl⟩ := h
  exact (y s).1.2

namespace Dice

open Pattern

variable {σ α : Type} (dice : Dice σ)

theorem always_range (lo hi : Nat) (h : lo < hi) : Always (lo ≤ ·) (dice.range lo hi h) :=
  (always_true _).bind fun _ _ ↦ always_pure (Nat.le_add_right ..)

theorem always_sample (xs : List α) (h : 0 < xs.length) : Always (· ∈ xs) (dice.sample xs h) :=
  (always_true _).bind fun _ _ ↦ always_pure (List.getElem_mem _)

/-- The results of repeated draws have the property of one, and are as many as asked for. -/
theorem always_repeated {x : StateM σ α} {p : α → Prop} (h : Always p x) (n : Nat) :
    Always (fun as ↦ (∀ a ∈ as, p a) ∧ as.length = n) (repeated x n) := by
  induction n with
  | zero => exact always_pure ⟨nofun, rfl⟩
  | succ n ih =>
    refine h.bind fun a ha ↦ ih.bind fun as has ↦ always_pure ⟨?_, congrArg (· + 1) has.2⟩
    exact List.forall_mem_cons.mpr ⟨ha, has.1⟩

section

variable {alphabet : List Char} (ha : 0 < alphabet.length) (h : ∀ c ∈ alphabet, Harmless c)
  {inner : Option (StateM σ (List Char))} (hinner : ∀ x ∈ inner, Always (Spelled IsExpr) x)

include h

/-- The items of a class are harmless characters. -/
theorem always_classItem : Always (∀ c ∈ ·, Harmless c) (dice.classItem alphabet ha) := by
  unfold classItem
  refine (dice.always_sample alphabet ha).bind fun c hc ↦ (always_true _).bind fun ranged _ ↦ ?_
  split
  · refine (dice.always_sample alphabet ha).bind fun d hd ↦ always_pure ?_
    simp [h c hc, h d hd, harmless_dash]
  · refine always_pure ?_
    simp [h c hc]

/-- A drawn class is spelled as a term. -/
theorem always_charClass : Always (Spelled IsTerm) (dice.charClass alphabet ha) := by
  unfold charClass
  refine (always_true _).bind fun negated _ ↦ (always_true _).bind fun count _ ↦ ?_
  refine (always_repeated (dice.always_classItem ha h) count).bind fun items hitems ↦ ?_
  refine always_pure (spelled_charClass fun c hc ↦ ?_)
  rcases List.mem_append.mp hc with hcaret | hc
  · cases negated with
    | true =>
      rw [List.mem_singleton.mp hcaret]
      exact harmless_caret
    | false => cases hcaret
  · obtain ⟨item, hitem, hc⟩ := List.mem_flatten.mp hc
    exact hitems.1 item hitem c hc

include hinner

/-- A drawn term is spelled as one. -/
theorem always_term : Always (Spelled IsTerm) (dice.term alphabet ha inner) := by
  have hliteral := (dice.always_sample alphabet ha).bind fun c hc ↦
    always_pure (m := StateM σ) (spelled_literal (h c hc))
  unfold term
  refine (always_true _).bind fun kind _ ↦ ?_
  split
  · exact hliteral
  · exact hliteral
  · exact dice.always_charClass ha h
  · exact (hinner _ rfl).bind fun p hp ↦ always_pure hp.group
  · exact always_pure spelled_empty

theorem always_starred : Always (Spelled IsRep) (dice.starred alphabet ha inner) := by
  unfold starred
  refine (dice.always_term ha h hinner).bind fun p hp ↦ (always_true _).bind fun again _ ↦ ?_
  refine always_pure ?_
  split
  · exact hp.star
  · exact hp.once

theorem always_sequence : Always (Spelled IsSequence) (dice.sequence alphabet ha inner) := by
  unfold sequence
  refine (dice.always_range 1 4 (by decide)).bind fun count hcount ↦ ?_
  refine (always_repeated (dice.always_starred ha h hinner) count).bind fun ps hps ↦ ?_
  obtain ⟨w, rs, hspells, hreps, hlength⟩ := exists_isReps_flatten hps.1
  refine always_pure ⟨w, rs, hspells, hreps, List.ne_nil_of_length_pos ?_⟩
  -- the count is rolled from one on, so the row is not hollow
  rw [hlength, hps.2]
  exact hcount

theorem always_alternative : Always (Spelled IsReps) (dice.alternative alphabet ha inner) := by
  unfold alternative
  refine (always_true _).bind fun hollow _ ↦ ?_
  split
  · exact always_pure ⟨[], [], .nil, .nil⟩
  · have hsequence := dice.always_sequence ha h hinner
    rw [← id_map (dice.sequence alphabet ha inner)]
    exact hsequence.map fun p ⟨w, rs, hspells, hreps, _⟩ ↦ ⟨w, rs, hspells, hreps⟩

/-- A drawn expression is spelled as one. -/
theorem always_expression : Always (Spelled IsExpr) (dice.expression alphabet ha inner) := by
  unfold expression
  have hcount : ∀ count, Always (Spelled IsExpr) (do
      let first ← dice.sequence alphabet ha inner
      let others ← repeated (dice.alternative alphabet ha inner) (count - 1)
      return ['|'].intercalate (first :: others)) := by
    intro count
    refine (dice.always_sequence ha h hinner).bind fun first hfirst ↦ ?_
    refine (always_repeated (dice.always_alternative ha h hinner) _).bind fun others hothers ↦ ?_
    exact always_pure (hfirst.branches hothers.1)
  refine (always_true _).bind fun several _ ↦ ?_
  dsimp only
  split
  · exact (always_true _).bind fun count _ ↦ hcount count
  · exact (always_true _).bind fun count _ ↦ hcount count

omit hinner in
/-- Whatever the dice say, a pattern is an expression. -/
theorem always_pattern (depth : Nat) :
    Always (Spelled IsExpr) (dice.pattern alphabet ha depth) := by
  induction depth with
  | zero => exact dice.always_expression ha h nofun
  | succ depth ih =>
    refine dice.always_expression ha h fun x hx ↦ ?_
    rw [← Option.some.inj hx]
    exact ih

end

/-! ## Counting the depth down

The depth can also be a number from which every group takes one.  Where there is nothing to take,
there is no result. -/

/-- The results of repeating something that may have none. -/
def attempted (x : OptionT (StateM σ) α) : Nat → OptionT (StateM σ) (List α)
  | 0 => return []
  | n + 1 => do
    let a ← x
    let as ← attempted x n
    return a :: as

section

variable (alphabet : List Char) (ha : 0 < alphabet.length)

mutual

def expressionAt (depth : Nat) : OptionT (StateM σ) (List Char) := do
  let count ← if ← dice.chance 30 then dice.range 2 4 (by decide) else pure 1
  let first ← sequenceAt depth
  let others ← attempted (alternativeAt depth) (count - 1)
  return ['|'].intercalate (first :: others)
termination_by (depth, 4)

def alternativeAt (depth : Nat) : OptionT (StateM σ) (List Char) := do
  if ← dice.chance 10 then return [] else sequenceAt depth
termination_by (depth, 3)

def sequenceAt (depth : Nat) : OptionT (StateM σ) (List Char) := do
  let count ← dice.range 1 4 (by decide)
  return (← attempted (starredAt depth) count).flatten
termination_by (depth, 2)

def starredAt (depth : Nat) : OptionT (StateM σ) (List Char) := do
  let t ← termAt depth
  return if ← dice.chance 25 then t ++ ['*'] else t
termination_by (depth, 1)

def termAt (depth : Nat) : OptionT (StateM σ) (List Char) := do
  let kind ← dice.below (if 0 < depth then 5 else 4) (by split <;> decide)
  match kind.val, depth with
  | 0, _ | 1, _ =>
    let c ← (dice.sample alphabet ha : StateM σ Char)
    return [c]
  | 2, _ => dice.charClass alphabet ha
  | 3, _ => return ['\\', 'e']
  | _, 0 => failure
  | _, depth + 1 => return '(' :: (← expressionAt depth) ++ [')']
termination_by (depth, 0)

end

/-- What cannot fail need not be attempted. -/
theorem attempted_liftM (x : StateM σ α) (n : Nat) :
    attempted (liftM x : OptionT (StateM σ) α) n = liftM (repeated x n) := by
  induction n with
  | zero => rw [attempted, repeated, liftM_pure]
  | succ n ih => simp only [attempted, repeated, liftM_bind, liftM_pure, ih]

/-- What a group at a depth is about. -/
def inner : (depth : Nat) → Option (StateM σ (List Char))
  | 0 => none
  | depth + 1 => some (dice.pattern alphabet ha depth)

/-- A pattern is an expression, with what is left of the depth inside it. -/
theorem pattern_eq (depth : Nat) :
    dice.pattern alphabet ha depth =
      dice.expression alphabet ha (dice.inner alphabet ha depth) := by
  cases depth <;> rfl

section

variable {depth : Nat}
  (h : ∀ d < depth, dice.expressionAt alphabet ha d = liftM (dice.pattern alphabet ha d))

include h

/-- The term that counts its depth is the term, and does not fail. -/
theorem termAt_eq :
    dice.termAt alphabet ha depth =
      liftM (dice.term alphabet ha (dice.inner alphabet ha depth)) := by
  cases depth with
  | zero =>
    rw [termAt, term, liftM_bind]
    refine bind_congr fun kind ↦ ?_
    -- the die has no side for a group
    have hlt : kind.val < 4 := kind.isLt
    generalize kind.val = kind at hlt
    interval_cases kind <;> simp only [inner, liftM_bind, liftM_pure]
  | succ depth =>
    rw [termAt, term, liftM_bind]
    refine bind_congr fun kind ↦ ?_
    have hlt : kind.val < 5 := kind.isLt
    generalize kind.val = kind at hlt
    interval_cases kind <;>
      simp only [inner, liftM_bind, liftM_pure, h depth (Nat.lt_succ_self depth)]

theorem starredAt_eq :
    dice.starredAt alphabet ha depth =
      liftM (dice.starred alphabet ha (dice.inner alphabet ha depth)) := by
  rw [starredAt, starred, dice.termAt_eq alphabet ha h]
  simp only [liftM_bind, liftM_pure]

theorem sequenceAt_eq :
    dice.sequenceAt alphabet ha depth =
      liftM (dice.sequence alphabet ha (dice.inner alphabet ha depth)) := by
  rw [sequenceAt, sequence, dice.starredAt_eq alphabet ha h]
  simp only [attempted_liftM, liftM_bind, liftM_pure]

theorem alternativeAt_eq :
    dice.alternativeAt alphabet ha depth =
      liftM (dice.alternative alphabet ha (dice.inner alphabet ha depth)) := by
  rw [alternativeAt, alternative, dice.sequenceAt_eq alphabet ha h, liftM_bind]
  refine bind_congr fun hollow ↦ ?_
  split
  · rw [liftM_pure]
  · rfl

end

/-- There is always something to take, and what results is the pattern of that depth. -/
theorem expressionAt_eq (depth : Nat) :
    dice.expressionAt alphabet ha depth = liftM (dice.pattern alphabet ha depth) := by
  induction depth using Nat.strong_induction_on with
  | h depth ih =>
    rw [expressionAt, pattern_eq, expression, dice.sequenceAt_eq alphabet ha ih,
      dice.alternativeAt_eq alphabet ha ih, liftM_bind]
    refine bind_congr fun several ↦ ?_
    dsimp only
    split <;> simp only [attempted_liftM, liftM_bind, liftM_pure]

end

end Dice

/-! ## Checking -/

namespace Fuzz

/-- The alphabet is harmless. -/
theorem harmless_of_mem_alphabet : ∀ c ∈ alphabet, Pattern.Harmless c := by
  simp [alphabet, Pattern.Harmless]

/-- A pattern that parses makes no mismatch about parsing. -/
theorem what_ne_parse {p input : String} {e : Mismatch} (h : ∃ r, Pattern.parse p = .ok r)
    (he : check p input = .error e) : e.what ≠ "parse" := by
  have hbuild : "build" ≠ "parse" := by decide
  have hfull : "full match" ≠ "parse" := by decide
  have hall : "find all" ≠ "parse" := by decide
  obtain ⟨r, hr⟩ := h
  unfold check at he
  rw [hr] at he
  dsimp only at he
  rw [pure_bind] at he
  split at he
  · rw [pure_bind] at he
    split at he
    · cases he
      exact hfull
    · split at he
      · cases he
        exact hall
      · cases he
  · cases he
    exact hbuild

variable {σ : Type} (dice : Dice σ)

/-- Every case that is rolled has a pattern that parses. -/
theorem always_roll : Always (fun case ↦ ∃ r, Pattern.parse case.1 = .ok r) (roll dice) := by
  refine (dice.always_pattern (by decide) harmless_of_mem_alphabet 3).bind fun p hp ↦ ?_
  exact (always_true _).bind fun input _ ↦ always_pure hp.isOk

/-- No mismatch is about parsing. -/
theorem checkCases_what_ne_parse {s : σ} {cases : Nat} {e : Mismatch}
    (h : checkCases dice s cases = .error e) : e.what ≠ "parse" := by
  induction cases generalizing s with
  | zero => cases h
  | succ cases ih =>
    have hparse := (always_roll dice).fst s
    rw [checkCases] at h
    generalize roll dice s = rolled at hparse h
    obtain ⟨⟨p, input⟩, s⟩ := rolled
    dsimp only at hparse h
    split at h
    · exact ih h
    · next hcheck =>
      cases h
      exact what_ne_parse hparse hcheck

end Fuzz

/-! ## Any dice -/

namespace Dice

/-- A random pattern over an alphabet of harmless characters never lacks the depth for a group, and
it can be parsed.  So a pattern that cannot be parsed is nothing that checking comes upon. -/
theorem pattern_wellFormed {σ : Type} (dice : Dice σ) {alphabet : List Char}
    (ha : 0 < alphabet.length) (h : ∀ c ∈ alphabet, Pattern.Harmless c) (depth : Nat) (s : σ) :
    ∃ p s', (dice.expressionAt alphabet ha depth).run s = (some p, s') ∧
      dice.pattern alphabet ha depth s = (p, s') ∧
      (∃ r, Pattern.parse (String.ofList p) = .ok r) ∧
      (∀ input e, Fuzz.check (String.ofList p) input = .error e → e.what ≠ "parse") ∧
      ∀ cases e, Fuzz.checkCases dice s cases = .error e → e.what ≠ "parse" := by
  have hparse := ((dice.always_pattern ha h depth).fst s).isOk
  refine ⟨_, _, ?_, rfl, hparse, ?_, ?_⟩
  · rw [expressionAt_eq]
    rfl
  · exact fun input e he ↦ Fuzz.what_ne_parse hparse he
  · exact fun cases e he ↦ Fuzz.checkCases_what_ne_parse dice he

/-- Dice whose rolls are read off a list. -/
def scripted : Dice (List Nat) where
  below n h rolls := (⟨rolls.headD 0 % n, Nat.mod_lt _ h⟩, rolls.tail)
  percentile rolls := (⟨rolls.headD 0 % 100, Nat.mod_lt _ (by decide)⟩, rolls.tail)

/-- Carets and dashes at every place of a class, in a group with a star before a hollow
alternative. -/
theorem pattern_wellFormed_caret_dash :
    (∀ c ∈ ['^', '-'], Pattern.Harmless c) ∧
      let rolls := [0, 0, 0, 4, 99, 0, 2, 0, 2, 0, 0, 1, 1, 99, 99, 0, 0]
      (scripted.expressionAt ['^', '-'] (by decide) 1).run rolls =
        (some "([^^---])*|".toList, []) ∧
      (∃ r, Pattern.parse "([^^---])*|" = .ok r) ∧
      (∀ input e, Fuzz.check "([^^---])*|" input = .error e → e.what ≠ "parse") ∧
      ∀ cases e, Fuzz.checkCases scripted rolls cases = .error e → e.what ≠ "parse" := by
  have h : ∀ c ∈ ['^', '-'], Pattern.Harmless c := by
    simp [Pattern.harmless_caret, Pattern.harmless_dash]
  refine ⟨h, ?_⟩
  intro rolls
  have hvalue : scripted.pattern ['^', '-'] (by decide) 1 rolls = ("([^^---])*|".toList, []) :=
    rfl
  obtain ⟨p, s, hrun, hpattern, hparse, hcheck, hcases⟩ :=
    scripted.pattern_wellFormed (by decide) h 1 rolls
  rw [hvalue] at hpattern
  obtain ⟨rfl, rfl⟩ := Prod.mk.inj hpattern
  rw [String.ofList_toList] at hparse hcheck
  exact ⟨hrun, hparse, hcheck, hcases⟩

end Dice

end RegexScan
