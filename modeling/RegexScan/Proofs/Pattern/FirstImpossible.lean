import RegexScan.Proofs.Pattern.Descent

/-!
# Errors name the first impossible token

Every state can still be completed: a closing bracket ends its class, a term fills its innermost
expression, and each of its groups is closed in turn.  So the tokens that were taken go on to some
pattern, and the token that was refused is the first one that no pattern has in its place.  What a
state holds of its groups and its class are the brackets among these tokens that are open.
-/

namespace RegexScan.Pattern

/-! ## Open brackets -/

/-- The open brackets behind one more token, the innermost first. -/
def track (opened : List Token) (t : Token) : List Token :=
  match t.kind with
  | .operator '(' => t :: opened
  | .operator '[' => t :: opened
  | .operator ')' => opened.tail
  | .operator ']' => opened.tail
  | _ => opened

/-- The brackets that are not closed. -/
def openBrackets (ts : List Token) : List Token := ts.foldl track []

theorem track_of_literal {t : Token} {c : Char} (h : t.kind.literal? = some c)
    (opened : List Token) : track opened t = opened := by
  rw [literal?_eq_some_iff] at h
  obtain ⟨kind, offset⟩ := t
  cases h with
  | char => rfl
  | caret => rfl
  | dash => rfl

namespace State

/-- The brackets that a state is in. -/
def brackets (st : State) : List Token :=
  (st.openClass.map fun k ↦ ⟨.operator '[', k.opened⟩).toList ++
    st.groups.map fun g ↦ ⟨.operator '(', g.1⟩

variable {st st' : State} {t : Token} {ts us : List Token}

theorem brackets_of_operate {b : Branches} {groups : List (Nat × Branches)} {offset : Nat}
    {c : Char} (h : operate ⟨b, groups, none⟩ offset c = some st') :
    st'.brackets = track (brackets ⟨b, groups, none⟩) ⟨.operator c, offset⟩ := by
  cases operates_of_operate h with
  | literal hc => exact (track_of_literal hc _).symm
  | openGroup => rfl
  | openClass => rfl
  | star => rfl
  | bar => rfl
  | closeGroup hgroups =>
    subst hgroups
    rfl

/-- The groups and the class of a state are the brackets that are open. -/
theorem brackets_of_step (h : st.step t = some st') : st'.brackets = track st.brackets t := by
  obtain ⟨b, groups, openClass⟩ := st
  cases openClass with
  | some k =>
    obtain ⟨next, hnext, rfl⟩ := Option.map_eq_some_iff.mp h
    rcases OpenClass.step_cases hnext with ⟨hclose, s, rfl⟩ | ⟨k', c, rfl, hliteral, hopened⟩
    · rw [track, hclose]
      rfl
    · rw [track_of_literal hliteral, brackets, brackets, Option.map_some, Option.map_some, hopened]
  | none =>
    obtain ⟨kind, offset⟩ := t
    cases kind with
    | char c =>
      cases h
      rfl
    | emptyString =>
      cases h
      rfl
    | operator c => exact brackets_of_operate h
    | endOfPattern => cases h

/-- A state is in the brackets that are open. -/
theorem brackets_of_steps (h : st.steps ts = some st') :
    st'.brackets = ts.foldl track st.brackets := by
  induction ts generalizing st with
  | nil =>
    cases h
    rfl
  | cons t ts ih =>
    obtain ⟨next, hnext, h⟩ := Option.bind_eq_some_iff.mp h
    rw [ih h, brackets_of_step hnext, List.foldl_cons]

/-! ## Every state can be completed -/

/-- The class is ended, or there is none and a term is added. -/
theorem exists_outside (st : State) :
    ∃ us b, st.steps us = some ⟨b, st.groups, none⟩ ∧ b.isBlank = false := by
  obtain ⟨b, groups, openClass⟩ := st
  cases openClass with
  | some k =>
    obtain ⟨s, hs⟩ := k.exists_step_close (t := ⟨.operator ']', 0⟩) rfl
    refine ⟨[⟨.operator ']', 0⟩], b.push (.set s), ?_, ?_⟩
    · rw [steps_singleton]
      exact step_closeClass b groups hs
    · simp [Branches.isBlank, Branches.push]
  | none =>
    refine ⟨[⟨.emptyString, 0⟩], b.push .empty, ?_, ?_⟩
    · rw [steps_singleton]
      exact step_empty b groups rfl
    · simp [Branches.isBlank, Branches.push]

theorem exists_closed (b : Branches) (groups : List (Nat × Branches)) (hb : b.isBlank = false) :
    ∃ us b', steps ⟨b, groups, none⟩ us = some ⟨b', [], none⟩ ∧ b'.isBlank = false := by
  induction groups generalizing b with
  | nil => exact ⟨[], b, rfl, hb⟩
  | cons group groups ih =>
    obtain ⟨opened, outer⟩ := group
    have hpush : (outer.push b.expr).isBlank = false := by
      simp [Branches.isBlank, Branches.push]
    obtain ⟨us, b', hsteps, hb'⟩ := ih (outer.push b.expr) hpush
    refine ⟨⟨.operator ')', 0⟩ :: us, b', ?_, hb'⟩
    rw [steps, step_closeGroup b groups rfl hb]
    exact hsteps

/-- From every state some tokens lead to a tree. -/
theorem exists_completion (st : State) :
    ∃ us st' r, st.steps us = some st' ∧ st'.result? = some r := by
  obtain ⟨us, b, hus, hb⟩ := exists_outside st
  obtain ⟨vs, b', hvs, hb'⟩ := exists_closed b st.groups hb
  refine ⟨us ++ vs, ⟨b', [], none⟩, b'.expr, ?_, if_neg (Bool.not_eq_true _ ▸ hb')⟩
  rw [steps_append, hus]
  exact hvs

/-! ## Where a run fails -/

theorem runBy_append {eof : Token} (h : st.steps us = some st') (ts : List Token) :
    st.runBy eof (us ++ ts) = st'.runBy eof ts := by
  induction us generalizing st with
  | nil =>
    cases h
    rfl
  | cons u us ih =>
    obtain ⟨next, hnext, h⟩ := Option.bind_eq_some_iff.mp h
    rw [List.cons_append, runBy_of_step hnext, ih h]

/-- A run that fails takes some tokens, and then refuses the next. -/
theorem exists_refuses_of_runBy {eof : Token} {e : ParseError} (heof : eof.kind = .endOfPattern)
    (h : st.runBy eof ts = .error e) :
    ∃ us rest st', ts = us ++ rest ∧ st.steps us = some st' ∧ st'.Refuses (word eof rest) ∧
      e = st'.refuse (word eof rest) := by
  induction ts generalizing st with
  | nil =>
    rw [runBy, finish] at h
    split at h
    · cases h
    · next hresult =>
      refine ⟨[], [], st, rfl, rfl, ⟨?_, fun _ ↦ hresult⟩, (Except.error.inj h).symm⟩
      by_contra hstep
      obtain ⟨st', hst'⟩ := Option.ne_none_iff_exists'.mp hstep
      exact kind_ne_of_step hst' heof
  | cons t ts ih =>
    cases hstep : st.step t with
    | some next =>
      rw [runBy_of_step hstep] at h
      obtain ⟨us, rest, st', rfl, hsteps, hrest⟩ := ih h
      refine ⟨t :: us, rest, st', rfl, ?_, hrest⟩
      rw [steps, hstep]
      exact hsteps
    | none =>
      have hrefuses : st.Refuses t := by
        refine ⟨hstep, fun ht ↦ ?_⟩
        rw [runBy, if_pos ht, finish] at h
        split at h
        · cases h
        · assumption
      have he : st.runBy eof (t :: ts) = .error (st.refuse t) := runBy_of_refuses heof hrefuses
      exact ⟨[], t :: ts, st, rfl, rfl, hrefuses, Except.error.inj (h.symm.trans he)⟩

theorem refuse_found (st : State) (t : Token) : (st.refuse t).found = t := by
  rw [refuse]
  split
  · next k _ =>
    rw [OpenClass.refuse]
    split
    · rfl
    · split <;> rfl
  · split
    · rfl
    · split <;> rfl

/-- A group that is not closed is the innermost bracket. -/
theorem head?_brackets_of_unclosedGroup {opened : Nat} {u : Token}
    (h : st.refuse t = .unclosedGroup opened u) :
    st.brackets.head? = some ⟨.operator '(', opened⟩ := by
  obtain ⟨b, groups, openClass⟩ := st
  cases openClass with
  | some k =>
    change k.refuse t = _ at h
    rw [OpenClass.refuse] at h
    split at h
    · cases h
    · split at h <;> cases h
  | none =>
    cases groups with
    | nil =>
      rw [refuse] at h
      dsimp only at h
      split at h <;> cases h
    | cons group groups =>
      rw [refuse] at h
      dsimp only at h
      split at h
      · cases h
      · cases h
        rfl

/-- The bracket of an unclosed class is the innermost open one. -/
theorem head?_brackets_of_unclosedClass {opened : Nat} {u : Token}
    (h : st.refuse t = .unclosedClass opened u) :
    st.brackets.head? = some ⟨.operator '[', opened⟩ := by
  obtain ⟨b, groups, openClass⟩ := st
  cases openClass with
  | some k =>
    change k.refuse t = _ at h
    rw [OpenClass.refuse] at h
    split at h
    · cases h
    · split at h
      · cases h
        rfl
      · cases h
  | none =>
    rw [refuse] at h
    dsimp only at h
    split at h
    · cases h
    · split at h <;> cases h

end State

open State

/-! ## Errors -/

section

variable {ts us : List Token} {t : Token} {st : State}

/-- Tokens that are taken go on to a pattern. -/
theorem exists_parseTokens_append (h : start.steps ts = some st) :
    ∃ us r, parseTokens (ts ++ us) = .ok r := by
  obtain ⟨us, st', r, hsteps, hr⟩ := st.exists_completion
  refine ⟨us, r, ?_⟩
  have hall : start.steps (ts ++ us) = some st' := by
    rw [steps_append, h]
    exact hsteps
  rw [parseTokens_eq_runBy, ← List.append_nil (ts ++ us), runBy_append hall, runBy, finish, hr]

/-- Behind a token that is refused, nothing makes a pattern. -/
theorem parseTokens_refused (h : start.steps ts = some st) (ht : st.Refuses t) (us : List Token) :
    parseTokens (ts ++ t :: us) = .error (st.refuse t) := by
  rw [parseTokens_eq_runBy, runBy_append h]
  exact runBy_of_refuses rfl ht

/-- An error names the token at some place.  What comes before it goes on to some pattern, and
nothing goes on with it.  When a bracket is reported as unclosed, it is the innermost of those that
are open there.  And reading by descent gives up with the same error. -/
theorem parse_error_names_first_impossible {e : ParseError} (h : parseTokens ts = .error e) :
    descend ts = .error e ∧ ∃ k ≤ ts.length,
      e.found = ts[k]?.getD (impliedEnd ts) ∧
      (∃ us r, parseTokens (ts.take k ++ us) = .ok r) ∧
      (∀ us r, parseTokens (ts.take k ++ e.found :: us) ≠ .ok r) ∧
      (∀ opened t, e = .unclosedGroup opened t →
        (openBrackets (ts.take k)).head? = some ⟨.operator '(', opened⟩) ∧
      ∀ opened t, e = .unclosedClass opened t →
        (openBrackets (ts.take k)).head? = some ⟨.operator '[', opened⟩ := by
  refine ⟨(descend_eq ts).trans h, ?_⟩
  rw [parseTokens_eq_runBy] at h
  obtain ⟨us, rest, st, hts, hsteps, hrefuses, rfl⟩ := exists_refuses_of_runBy rfl h
  have htake : ts.take us.length = us := by rw [hts, List.take_left]
  have hbrackets : st.brackets = openBrackets us := brackets_of_steps hsteps
  refine ⟨us.length, ?_, ?_⟩
  · rw [hts, List.length_append]
    exact Nat.le_add_right ..
  rw [htake, refuse_found, ← hbrackets]
  refine ⟨?_, exists_parseTokens_append hsteps, ?_, ?_, ?_⟩
  · have hget : ts[us.length]? = rest.head? := by
      rw [hts, List.getElem?_append_right (Nat.le_refl _), Nat.sub_self, List.head?_eq_getElem?]
    rw [hget, word, List.headD_eq_head?_getD]
  · intro vs r hr
    cases (parseTokens_refused hsteps hrefuses vs).symm.trans hr
  · exact fun opened t ↦ head?_brackets_of_unclosedGroup
  · exact fun opened t ↦ head?_brackets_of_unclosedClass

/-- The second star of `((a)|b**` is impossible, and the group it stands in is the outer one. -/
theorem parse_error_names_second_star :
    let ts : List Token := [⟨.operator '(', 0⟩, ⟨.operator '(', 1⟩, ⟨.char 'a', 2⟩,
      ⟨.operator ')', 3⟩, ⟨.operator '|', 4⟩, ⟨.char 'b', 5⟩, ⟨.operator '*', 6⟩,
      ⟨.operator '*', 7⟩]
    let e : ParseError := .unclosedGroup 0 ⟨.operator '*', 7⟩
    parseTokens ts = .error e ∧ ∃ k ≤ 8, ts[k]?.getD (impliedEnd ts) = ⟨.operator '*', 7⟩ ∧
      (∀ us r, parseTokens (ts.take k ++ ⟨.operator '*', 7⟩ :: us) ≠ .ok r) ∧
      (openBrackets (ts.take k)).head? = some ⟨.operator '(', 0⟩ := by
  intro ts e
  have herror : parseTokens ts = .error e := by cbv
  obtain ⟨-, k, hk, hfound, -, himpossible, hgroup, -⟩ := parse_error_names_first_impossible herror
  exact ⟨herror, k, hk, hfound.symm, himpossible, hgroup 0 _ rfl⟩

end

end RegexScan.Pattern
