import Mathlib.Data.List.Permutation
import RegexScan.Proofs.Pattern.Soundness

/-!
# Every expression is read

A derivation says how the state goes on: a term is pushed, whatever is read within its brackets is
gone behind them, and the alternatives end up finished in their order.  Together with soundness the
streams that are accepted are those that the grammar derives, and of the same tree.
-/

namespace RegexScan.Pattern

namespace State

/-- The state after several tokens. -/
def steps (st : State) : List Token → Option State
  | [] => some st
  | t :: ts => (st.step t).bind fun st' ↦ st'.steps ts

variable {st st' : State}

theorem steps_append (st : State) (ts us : List Token) :
    st.steps (ts ++ us) = (st.steps ts).bind fun st' ↦ st'.steps us := by
  induction ts generalizing st with
  | nil => rfl
  | cons t ts ih =>
    rw [List.cons_append, steps, steps]
    cases st.step t with
    | none => rfl
    | some st' => exact ih st'

theorem steps_singleton (st : State) (t : Token) : st.steps [t] = st.step t := by
  rw [steps]
  cases st.step t <;> rfl

/-- Tokens that lead to a state in which the pattern may end. -/
theorem run_eq_ok {lastOffset : Nat} {ts : List Token} {r : Regex}
    (h : st.steps (ts.takeWhile (·.kind ≠ .endOfPattern)) = some st')
    (hr : st'.result? = some r) : st.run lastOffset ts = .ok r := by
  induction ts generalizing st lastOffset with
  | nil =>
    cases h
    rw [run, finish, hr]
  | cons t ts ih =>
    rw [run]
    split
    · next ht =>
      rw [List.takeWhile_cons_of_neg (by simp [ht])] at h
      cases h
      rw [finish, hr]
    · next ht =>
      rw [List.takeWhile_cons_of_pos (by simpa using ht), steps] at h
      obtain ⟨next, hstep, h⟩ := Option.bind_eq_some_iff.mp h
      rw [hstep]
      exact ih h

/-! ## One token -/

section

variable {t : Token} (b : Branches) (groups : List (Nat × Branches))

theorem step_literal {c : Char} (h : IsLiteral t.kind c) :
    step ⟨b, groups, none⟩ t = some ⟨b.push (.literal c), groups, none⟩ := by
  obtain ⟨kind, offset⟩ := t
  cases h with
  | char => rfl
  | caret => rfl
  | dash => rfl

theorem step_empty (h : t.kind = .emptyString) :
    step ⟨b, groups, none⟩ t = some ⟨b.push .empty, groups, none⟩ := by
  simp only [step, h]
  rfl

theorem step_operator {c : Char} (h : t.kind = .operator c) :
    step ⟨b, groups, none⟩ t = operate ⟨b, groups, none⟩ t.offset c := by
  simp only [step, h]

/-- An opening parenthesis puts the branches aside and starts new ones. -/
theorem step_openGroup (h : t.kind = .operator '(') :
    step ⟨b, groups, none⟩ t = some ⟨.start, (t.offset, b) :: groups, none⟩ := by
  rw [step_operator b groups h]
  rfl

/-- A closing parenthesis makes the group a term of the branches that were put aside. -/
theorem step_closeGroup {opened : Nat} {outer : Branches} (h : t.kind = .operator ')')
    (hb : b.isBlank = false) :
    step ⟨b, (opened, outer) :: groups, none⟩ t = some ⟨outer.push b.expr, groups, none⟩ := by
  rw [step_operator b _ h]
  change (if b.isBlank then none else some (State.mk (outer.push b.expr) groups none)) = _
  rw [hb]
  rfl

/-- A star repeats the last term, which cannot be repeated again. -/
theorem step_star {finished rs : List Regex} {r : Regex} (h : t.kind = .operator '*') :
    step ⟨⟨finished, r :: rs, true⟩, groups, none⟩ t =
      some ⟨⟨finished, .star r :: rs, false⟩, groups, none⟩ := by
  rw [step_operator _ groups h]
  rfl

/-- A bar ends a branch that is not blank. -/
theorem step_bar (h : t.kind = .operator '|') (hb : b.isBlank = false) :
    step ⟨b, groups, none⟩ t = some ⟨b.next, groups, none⟩ := by
  rw [step_operator b groups h]
  change (if b.isBlank then none else some (State.mk b.next groups none)) = _
  rw [hb]
  rfl

theorem step_openClass (h : t.kind = .operator '[') :
    step ⟨b, groups, none⟩ t = some ⟨b, groups, some (.start t.offset)⟩ := by
  rw [step_operator b groups h]
  rfl

theorem step_inside {k k' : OpenClass} (h : k.step t = some (.inl k')) :
    step ⟨b, groups, some k⟩ t = some ⟨b, groups, some k'⟩ := by
  simp only [step, h]
  rfl

theorem step_closeClass {k : OpenClass} {s : CharSet} (h : k.step t = some (.inr s)) :
    step ⟨b, groups, some k⟩ t = some ⟨b.push (.set s), groups, none⟩ := by
  simp only [step, h]
  rfl

end

/-- The rest of a class and its closing bracket. -/
theorem steps_of_continues {k : OpenClass} {s : CharSet} (b : Branches)
    (groups : List (Nat × Branches)) {ts : List Token} {t : Token}
    (h : k.Continues (ts.map (·.kind)) s) (ht : t.kind = .operator ']') :
    steps ⟨b, groups, some k⟩ (ts ++ [t]) = some ⟨b.push (.set s), groups, none⟩ := by
  induction ts generalizing k with
  | nil =>
    rw [List.nil_append, steps_singleton]
    exact step_closeClass b groups ((OpenClass.continues_nil_iff ht).mp h)
  | cons u ts ih =>
    obtain ⟨k', hstep, h⟩ := OpenClass.continues_cons_iff.mp h
    rw [List.cons_append, steps, step_inside b groups hstep]
    exact ih h

end State

open State

/-! ## Derivations -/

mutual

/-- The state machine reads an expression from the start of a group, and has its tree. -/
theorem IsExpr.steps {w : List TokenKind} {r : Regex} (h : IsExpr w r) {ts : List Token}
    (hts : ts.map (·.kind) = w) (groups : List (Nat × Branches)) :
    ∃ b, State.steps ⟨.start, groups, none⟩ ts = some ⟨b, groups, none⟩ ∧
      b.isBlank = false ∧ b.expr = r := by
  match h with
  | @IsExpr.branches _ _ rs bs hreps hne hbranches =>
    obtain ⟨us, vs, rfl, hus, hvs⟩ := List.map_eq_append_iff.mp hts
    obtain ⟨starrable, hfirst⟩ := hreps.steps hus [] [] false groups
    rw [List.append_nil] at hfirst
    have hblank : Branches.isBlank ⟨[], rs.reverse, starrable⟩ = false := by
      simp [Branches.isBlank, hne]
    obtain ⟨b, hrest, hb, halternatives⟩ := hbranches.steps hvs _ hblank groups
    refine ⟨b, ?_, hb, ?_⟩
    · rw [steps_append, Branches.start, hfirst, Option.bind_some, hrest]
    · rw [b.expr_eq, halternatives, Branches.last_eq, List.reverse_reverse]
      rfl

/-- The state machine reads further branches behind those that it has. -/
theorem IsBranches.steps {w : List TokenKind} {bs : List Regex} (h : IsBranches w bs)
    {ts : List Token} (hts : ts.map (·.kind) = w) (b : Branches) (hb : b.isBlank = false)
    (groups : List (Nat × Branches)) :
    ∃ b', State.steps ⟨b, groups, none⟩ ts = some ⟨b', groups, none⟩ ∧ b'.isBlank = false ∧
      (b'.last :: b'.finished).reverse = (b.last :: b.finished).reverse ++ bs := by
  match h with
  | .nil =>
    obtain rfl := List.map_eq_nil_iff.mp hts
    exact ⟨b, rfl, hb, (List.append_nil _).symm⟩
  | @IsBranches.cons _ _ rs bs hreps hbranches =>
    obtain ⟨us, vs, rfl, hus, hvs⟩ := List.map_eq_append_iff.mp hts
    obtain ⟨t, us, rfl, ht, hus⟩ := List.map_eq_cons_iff.mp hus
    obtain ⟨starrable, hfirst⟩ := hreps.steps hus (b.last :: b.finished) [] false groups
    rw [List.append_nil] at hfirst
    obtain ⟨b', hrest, hb', halternatives⟩ :=
      hbranches.steps hvs ⟨b.last :: b.finished, rs.reverse, starrable⟩ rfl groups
    refine ⟨b', ?_, hb', ?_⟩
    · rw [List.cons_append, State.steps, step_bar b groups ht hb, Option.bind_some, steps_append,
        Branches.next, hfirst, Option.bind_some, hrest]
    · rw [halternatives, Branches.last_eq, List.reverse_reverse, List.reverse_cons,
        List.append_assoc]
      rfl

/-- The state machine reads further terms, starred or not, behind those that it has. -/
theorem IsReps.steps {w : List TokenKind} {rs : List Regex} (h : IsReps w rs)
    {ts : List Token} (hts : ts.map (·.kind) = w) (finished terms : List Regex)
    (starrable : Bool) (groups : List (Nat × Branches)) :
    ∃ starrable', State.steps ⟨⟨finished, terms, starrable⟩, groups, none⟩ ts =
      some ⟨⟨finished, rs.reverse ++ terms, starrable'⟩, groups, none⟩ := by
  match h with
  | .nil =>
    obtain rfl := List.map_eq_nil_iff.mp hts
    exact ⟨starrable, rfl⟩
  | @IsReps.cons _ _ r rs hrep hreps =>
    obtain ⟨us, vs, rfl, hus, hvs⟩ := List.map_eq_append_iff.mp hts
    obtain ⟨mid, hmid⟩ := hrep.steps hus ⟨finished, terms, starrable⟩ groups
    obtain ⟨last, hlast⟩ := hreps.steps hvs finished (r :: terms) mid groups
    refine ⟨last, ?_⟩
    rw [steps_append, hmid, Option.bind_some, hlast, List.reverse_cons, List.append_assoc]
    rfl

/-- The state machine reads one term, starred or not. -/
theorem IsRep.steps {w : List TokenKind} {r : Regex} (h : IsRep w r) {ts : List Token}
    (hts : ts.map (·.kind) = w) (b : Branches) (groups : List (Nat × Branches)) :
    ∃ starrable, State.steps ⟨b, groups, none⟩ ts =
      some ⟨⟨b.finished, r :: b.terms, starrable⟩, groups, none⟩ := by
  match h with
  | .once hterm => exact ⟨true, hterm.steps hts b groups⟩
  | .star hterm =>
    obtain ⟨us, vs, rfl, hus, hvs⟩ := List.map_eq_append_iff.mp hts
    obtain ⟨t, rfl, ht⟩ := List.map_eq_singleton_iff.mp hvs
    refine ⟨false, ?_⟩
    rw [steps_append, hterm.steps hus b groups, Option.bind_some, steps_singleton]
    exact step_star groups ht

/-- The state machine reads one term. -/
theorem IsTerm.steps {w : List TokenKind} {r : Regex} (h : IsTerm w r) {ts : List Token}
    (hts : ts.map (·.kind) = w) (b : Branches) (groups : List (Nat × Branches)) :
    State.steps ⟨b, groups, none⟩ ts = some ⟨b.push r, groups, none⟩ := by
  match h with
  | .group hexpr =>
    obtain ⟨vs, us, rfl, hvs, hus⟩ := List.map_eq_append_iff.mp hts
    obtain ⟨t, vs, rfl, ht, hvs⟩ := List.map_eq_cons_iff.mp hvs
    obtain ⟨u, rfl, hu⟩ := List.map_eq_singleton_iff.mp hus
    obtain ⟨inner, hsteps, hinner, rfl⟩ := hexpr.steps hvs ((t.offset, b) :: groups)
    rw [steps_append, State.steps, step_openGroup b groups ht, Option.bind_some, hsteps,
      Option.bind_some, steps_singleton, step_closeGroup inner groups hu hinner]
  | .charClass hclass =>
    obtain ⟨vs, us, rfl, hvs, hus⟩ := List.map_eq_append_iff.mp hts
    obtain ⟨t, ts, rfl, ht, rfl⟩ := List.map_eq_cons_iff.mp hvs
    obtain ⟨u, rfl, hu⟩ := List.map_eq_singleton_iff.mp hus
    rw [List.cons_append, State.steps, step_openClass b groups ht, Option.bind_some]
    exact steps_of_continues b groups (OpenClass.continues_start_iff.mpr hclass) hu
  | .literal hk =>
    obtain ⟨t, rfl, rfl⟩ := List.map_eq_singleton_iff.mp hts
    rw [steps_singleton]
    exact step_literal b groups hk
  | .empty =>
    obtain ⟨t, rfl, ht⟩ := List.map_eq_singleton_iff.mp hts
    rw [steps_singleton]
    exact step_empty b groups ht

end

/-! ## The parser and the grammar -/

/-- Parsing accepts exactly the expressions of the grammar, with their trees. -/
theorem parseTokens_eq_ok_iff {ts : List Token} {r : Regex} :
    parseTokens ts = .ok r ↔ IsExpr (body ts) r := by
  refine ⟨isExpr_of_parseTokens, ?_⟩
  intro h
  have hbody : body ts = (ts.takeWhile (·.kind ≠ .endOfPattern)).map (·.kind) := by
    rw [body, List.takeWhile_map]
    rfl
  obtain ⟨b, hsteps, hb, rfl⟩ := h.steps hbody.symm []
  apply run_eq_ok hsteps
  simp only [result?, hb]
  rfl

/-- Tokens behind an end are not looked at. -/
theorem run_append_of_end {st : State} {lastOffset : Nat} {t : Token}
    (ht : t.kind = .endOfPattern) (ts us vs : List Token) :
    st.run lastOffset (ts ++ t :: us) = st.run lastOffset (ts ++ t :: vs) := by
  induction ts generalizing st lastOffset with
  | nil => rw [List.nil_append, List.nil_append, run, run, if_pos ht, if_pos ht]
  | cons u ts ih =>
    rw [List.cons_append, List.cons_append, run, run]
    cases st.step u with
    | none => rfl
    | some st' =>
      simp only [ih]

/-- The parser accepts exactly the streams that the grammar derives, with the tree of the
derivation, which is the only one; the tokens behind the first end do not matter; and no tree has a
sequence or an alternation of fewer than two. -/
theorem parseTokens_accepts_grammar :
    (∀ ts r, parseTokens ts = .ok r ↔ IsExpr (body ts) r) ∧
      (∀ ts r r', IsExpr (body ts) r → IsExpr (body ts) r' → r = r') ∧
      (∀ (ts us vs : List Token) (t : Token), t.kind = .endOfPattern →
        parseTokens (ts ++ t :: us) = parseTokens (ts ++ t :: vs)) ∧
      ∀ ts r, parseTokens ts = .ok r → r.Branching := by
  refine ⟨fun ts r ↦ parseTokens_eq_ok_iff, ?_,
    fun ts us vs t ht ↦ run_append_of_end ht ts us vs, ?_⟩
  · intro ts r r' h h'
    have heq := (parseTokens_eq_ok_iff.mpr h).symm.trans (parseTokens_eq_ok_iff.mpr h')
    exact Except.ok.inj heq
  · intro ts r h
    exact (parseTokens_eq_ok_iff.mp h).branching

/-- A `^` that negates and one that does not, a dash at the end of a class, a hollow alternative and
a token behind the end. -/
theorem parseTokens_class_or_hollow :
    IsExpr [.operator '[', .operator '^', .operator '^', .operator '-', .operator ']',
        .operator '|']
      (.alt [.set (CharSet.ofList ['^', '-']).compl, .empty]) :=
  (parseTokens_accepts_grammar.1
    [⟨.operator '[', 0⟩, ⟨.operator '^', 1⟩, ⟨.operator '^', 2⟩, ⟨.operator '-', 3⟩,
      ⟨.operator ']', 4⟩, ⟨.operator '|', 5⟩, ⟨.endOfPattern, 6⟩, ⟨.operator ')', 7⟩] _).mp
    (by cbv)

end RegexScan.Pattern
