import RegexScan.Proofs.Pattern.Completeness

/-!
# Reading a pattern by descent

The grammar can also be read by functions that call each other, one for each of its rules.  Each of
them looks at the next token only, takes what its rule begins with, and gives up with an error of
its own where the rule does not go on.  What they have been called for is what a state holds, so
they give up at the same tokens with the same errors, and otherwise return the same tree.
-/

namespace RegexScan.Pattern

/-- The token that stands for the end of a stream without one. -/
def impliedEnd (ts : List Token) : Token := ⟨.endOfPattern, (ts.getLast?.map (·.offset)).getD 0⟩

/-- The next token, or the end. -/
def word (eof : Token) (ts : List Token) : Token := ts.headD eof

namespace Descent

variable (eof : Token)

/-- What is left behind something that takes a token at least. -/
abbrev Behind (ts : List Token) : Type := {rest : List Token // rest.length < ts.length}

/-! ## Classes -/

/-- The characters of an item that begins with `c`, if the tokens behind it go on with a range. -/
def item (c : Char) (ts : List Token) :
    Except ParseError (List Char × {rest : List Token // rest.length ≤ ts.length}) :=
  match ts with
  | [] => .ok ([c], ⟨[], Nat.le_refl _⟩)
  | dash :: ts =>
    if dash.kind = .operator '-' then
      if (word eof ts).kind = .operator ']' then .ok ([c, '-'], ⟨ts, Nat.le_succ _⟩)
      else match (word eof ts).kind.literal? with
        | some d => .ok ((CharSet.range c d).items,
            ⟨ts.tail, Nat.le_succ_of_le (List.tail_sublist ts).length_le⟩)
        | none => .error (.danglingRange dash.offset (word eof ts))
    else .ok ([c], ⟨dash :: ts, Nat.le_refl _⟩)

/-- The characters of a class up to its closing bracket. -/
def items (opened : Nat) (ts : List Token) : Except ParseError (List Char × Behind ts) :=
  match ts with
  | [] => .error (.unclosedClass opened eof)
  | t :: ts =>
    if t.kind = .operator ']' then .ok ([], ⟨ts, Nat.lt_succ_self _⟩)
    else match t.kind.literal? with
      | some c => do
        let (cs, rest) ← item eof c ts
        let (ds, rest) ← items opened rest.1
        return (cs ++ ds, ⟨rest.1, by grind⟩)
      | none =>
        .error (if t.kind = .endOfPattern then .unclosedClass opened t else .unexpectedInClass t)
termination_by ts.length
decreasing_by grind

def charClass (opened : Nat) (ts : List Token) : Except ParseError (CharSet × Behind ts) :=
  if (word eof ts).kind = .operator '^' then do
    let (cs, rest) ← items eof opened ts.tail
    return ((CharSet.ofList cs).compl, ⟨rest.1, by grind⟩)
  else do
    let (cs, rest) ← items eof opened ts
    return (.ofList cs, rest)

/-! ## Expressions -/

mutual

def expr (ts : List Token) : Except ParseError (Regex × Behind ts) := do
  match ← terms ts with
  | ⟨([], rest), _⟩ => .error (.expectedOperand (word eof rest))
  | ⟨(r :: rs, rest), h⟩ =>
    let (bs, rest) ← branches rest
    return (ofBranches (ofTerms (r :: rs) :: bs), ⟨rest.1, by grind⟩)
termination_by (ts.length, 3)
decreasing_by all_goals grind

/-- The further alternatives, each behind its bar. -/
def branches (ts : List Token) :
    Except ParseError (List Regex × {rest : List Token // rest.length ≤ ts.length}) :=
  match ts with
  | [] => .ok ([], ⟨[], Nat.le_refl _⟩)
  | t :: ts =>
    if t.kind = .operator '|' then do
      let ⟨(rs, rest), h⟩ ← terms ts
      let (bs, rest) ← branches rest
      return (ofTerms rs :: bs, ⟨rest.1, by grind⟩)
    else .ok ([], ⟨t :: ts, Nat.le_refl _⟩)
termination_by (ts.length, 0)
decreasing_by all_goals grind

/-- Terms in a row, each of which takes a token at least. -/
def terms (ts : List Token) :
    Except ParseError {p : List Regex × List Token // p.2.length + p.1.length ≤ ts.length} := do
  match ← rep ts with
  | none => return ⟨([], ts), Nat.le_refl _⟩
  | some (r, rest) =>
    let ⟨(rs, rest), h⟩ ← terms rest.1
    return ⟨(r :: rs, rest), by grind⟩
termination_by (ts.length, 2)
decreasing_by all_goals grind

def rep (ts : List Token) : Except ParseError (Option (Regex × Behind ts)) := do
  match ← term ts with
  | none => return none
  | some (r, rest) =>
    if (word eof rest.1).kind = .operator '*' then
      return some (.star r, ⟨rest.1.tail, by grind⟩)
    else return some (r, rest)
termination_by (ts.length, 1)
decreasing_by all_goals grind

def term (ts : List Token) : Except ParseError (Option (Regex × Behind ts)) :=
  match ts with
  | [] => .ok none
  | t :: ts =>
    if t.kind = .operator '(' then do
      let (r, rest) ← expr ts
      if (word eof rest.1).kind = .operator ')' then
        return some (r, ⟨rest.1.tail, by grind⟩)
      else .error (.unclosedGroup t.offset (word eof rest.1))
    else if t.kind = .operator '[' then do
      let (s, rest) ← charClass eof t.offset ts
      return some (.set s, ⟨rest.1, by grind⟩)
    else if t.kind = .emptyString then .ok (some (.empty, ⟨ts, Nat.lt_succ_self _⟩))
    else match t.kind.literal? with
      | some c => .ok (some (.literal c, ⟨ts, Nat.lt_succ_self _⟩))
      | none => .ok none
termination_by (ts.length, 0)
decreasing_by all_goals grind

end

end Descent

/-- All tokens up to the first end are an expression. -/
def descend (ts : List Token) : Except ParseError Regex := do
  let eof := impliedEnd ts
  let (r, rest) ← Descent.expr eof ts
  if (word eof rest.1).kind = .endOfPattern then return r
  else .error (.trailingInput (word eof rest.1))

/-! ## Reading up to a given end -/

namespace State

/-- Read tokens up to the first end, which is the given one if there is none among them. -/
def runBy (eof : Token) (st : State) : List Token → Except ParseError Regex
  | [] => st.finish eof
  | t :: ts =>
    if t.kind = .endOfPattern then st.finish t
    else match st.step t with
      | some st => st.runBy eof ts
      | none => .error (st.refuse t)

/-- The token is not taken, and nothing ends at it. -/
def Refuses (st : State) (t : Token) : Prop :=
  st.step t = none ∧ (t.kind = .endOfPattern → st.result? = none)

/-- Running out of tokens is meeting an end at the place of the last one. -/
theorem run_eq_runBy (st : State) (lastOffset : Nat) (ts : List Token) :
    st.run lastOffset ts =
      st.runBy ⟨.endOfPattern, (ts.getLast?.map (·.offset)).getD lastOffset⟩ ts := by
  induction ts generalizing st lastOffset with
  | nil => rfl
  | cons t ts ih =>
    have hlast : ((t :: ts).getLast?.map (·.offset)).getD lastOffset =
        (ts.getLast?.map (·.offset)).getD t.offset := by
      rw [List.getLast?_cons]
      cases ts.getLast? <;> rfl
    rw [run, runBy, hlast]
    cases st.step t with
    | none => rfl
    | some st' => simp only [ih]

/-- Parsing with the implied end made explicit. -/
theorem parseTokens_eq_runBy (ts : List Token) :
    parseTokens ts = start.runBy (impliedEnd ts) ts := run_eq_runBy ..

section

variable {eof t : Token} {st st' : State} {ts : List Token}

/-- No state takes an end. -/
theorem kind_ne_of_step (h : st.step t = some st') : t.kind ≠ .endOfPattern := by
  intro ht
  obtain ⟨b, groups, openClass⟩ := st
  cases openClass with
  | none =>
    simp only [step, ht] at h
    cases h
  | some k =>
    obtain ⟨next, hnext, -⟩ := Option.map_eq_some_iff.mp h
    rcases OpenClass.step_cases hnext with ⟨hclose, -⟩ | ⟨k', c, -, hliteral, -⟩
    · cases ht.symm.trans hclose
    · rw [ht] at hliteral
      cases hliteral

theorem runBy_of_step (h : st.step t = some st') : st.runBy eof (t :: ts) = st'.runBy eof ts := by
  rw [runBy, if_neg (kind_ne_of_step h), h]

theorem runBy_of_end (h : (word eof ts).kind = .endOfPattern) :
    st.runBy eof ts = st.finish (word eof ts) := by
  cases ts with
  | nil => rfl
  | cons t ts => exact if_pos h

theorem runBy_of_refuses (heof : eof.kind = .endOfPattern) (h : st.Refuses (word eof ts)) :
    st.runBy eof ts = .error (st.refuse (word eof ts)) := by
  cases ts with
  | nil =>
    have hresult : st.result? = none := h.2 heof
    rw [runBy, finish, hresult]
    rfl
  | cons t ts =>
    have hstep : st.step t = none := h.1
    have hresult : t.kind = .endOfPattern → st.result? = none := h.2
    rw [runBy]
    split
    · next ht =>
      rw [finish, hresult ht]
      rfl
    · rw [hstep]
      rfl

theorem eq_word_cons (heof : eof.kind = .endOfPattern)
    (h : (word eof ts).kind ≠ .endOfPattern) : ts = word eof ts :: ts.tail := by
  cases ts with
  | nil => exact absurd heof h
  | cons t ts => rfl

theorem runBy_of_step_word (heof : eof.kind = .endOfPattern)
    (h : st.step (word eof ts) = some st') : st.runBy eof ts = st'.runBy eof ts.tail :=
  (congrArg _ (eq_word_cons heof (kind_ne_of_step h))).trans (runBy_of_step h)

/-- A class is read by what it makes of the next token. -/
theorem runBy_class_congr {k k' : OpenClass} (b : Branches) (groups : List (Nat × Branches))
    (hstep : k.step (word eof ts) = k'.step (word eof ts))
    (hrefuse : k.refuse (word eof ts) = k'.refuse (word eof ts)) :
    runBy eof ⟨b, groups, some k⟩ ts = runBy eof ⟨b, groups, some k'⟩ ts := by
  cases ts with
  | nil => exact congrArg Except.error hrefuse
  | cons t ts =>
    change k.step t = k'.step t at hstep
    have hrefuse' : refuse ⟨b, groups, some k⟩ t = refuse ⟨b, groups, some k'⟩ t := hrefuse
    have hfinish : finish ⟨b, groups, some k⟩ t = finish ⟨b, groups, some k'⟩ t :=
      congrArg Except.error hrefuse
    have hstep' : step ⟨b, groups, some k⟩ t = step ⟨b, groups, some k'⟩ t := by
      simp only [step, hstep]
      rfl
    rw [runBy, runBy, hfinish, hstep', hrefuse']

end

end State

namespace Descent

open State

/-! ## Where a function leads -/

section

variable {α β : Type} {eof : Token} {st st' : State} {ts ts' : List Token}

/-- A state gives up with the error of a function, or else what is left of the tokens is read from
a state that goes with its result. -/
def Leads (eof : Token) (st : State) (ts : List Token) (found : Except ParseError α)
    (post : α → State → List Token → Prop) : Prop :=
  match found with
  | .error e => st.runBy eof ts = .error e
  | .ok a => ∃ st' ts', post a st' ts' ∧ st.runBy eof ts = st'.runBy eof ts'

variable {found : Except ParseError α} {post : α → State → List Token → Prop}

theorem Leads.ok {a : α} (h : post a st ts) : Leads eof st ts (.ok a) post := ⟨st, ts, h, rfl⟩

theorem Leads.of_eq (h : st.runBy eof ts = st'.runBy eof ts') (h' : Leads eof st' ts' found post) :
    Leads eof st ts found post := by
  cases found with
  | error e => exact h.trans h'
  | ok a =>
    obtain ⟨st₁, ts₁, hpost, hrun⟩ := h'
    exact ⟨st₁, ts₁, hpost, h.trans hrun⟩

/-- What a function does and then another, the state machine does in a row. -/
theorem Leads.bind {f : α → Except ParseError β} {post' : β → State → List Token → Prop}
    (h : Leads eof st ts found post)
    (h' : ∀ a st' ts', post a st' ts' → Leads eof st' ts' (f a) post') :
    Leads eof st ts (found >>= f) post' := by
  cases found with
  | error e => exact h
  | ok a =>
    obtain ⟨st₁, ts₁, hpost, hrun⟩ := h
    exact .of_eq hrun (h' a st₁ ts₁ hpost)

/-- A function that takes a word goes with the step on the word. -/
theorem Leads.step (heof : eof.kind = .endOfPattern) (h : st.step (word eof ts) = some st')
    (h' : Leads eof st' ts.tail found post) : Leads eof st ts found post :=
  .of_eq (runBy_of_step_word heof h) h'

/-- A function that fails at a word goes with the refusal of the word. -/
theorem Leads.refused {e : ParseError} (heof : eof.kind = .endOfPattern)
    (h : st.Refuses (word eof ts)) (he : st.refuse (word eof ts) = e) :
    Leads eof st ts (.error e) post :=
  (runBy_of_refuses heof h).trans (congrArg _ he)

end

/-! ## Classes are read alike -/

section

variable {eof : Token} (heof : eof.kind = .endOfPattern) (b : Branches)
  (groups : List (Nat × Branches))

theorem refuses_of_class {k : OpenClass} {t : Token} (h : k.step t = none) :
    Refuses ⟨b, groups, some k⟩ t := by
  refine ⟨?_, fun _ ↦ rfl⟩
  simp only [State.step, h]
  rfl

include heof

/-- The state machine reads an item as `item` does. -/
theorem item_leads {k : OpenClass} {c : Char} (hk : k.item = .first c) (ts : List Token) :
    Leads eof ⟨b, groups, some k⟩ ts (item eof c ts) fun found st' ts' ↦
      ts' = found.2.1 ∧ st' = ⟨b, groups, some (k.add (.ofList found.1))⟩ := by
  -- without a dash the item is complete
  have hsingle : (word eof ts).kind ≠ .operator '-' →
      runBy eof ⟨b, groups, some k⟩ ts =
        runBy eof ⟨b, groups, some (k.add (.ofList [c]))⟩ ts := by
    intro hdash
    apply runBy_class_congr
    · rw [OpenClass.step, OpenClass.step, hk]
      dsimp only
      rw [if_neg hdash, CharSet.singleton_eq_ofList]
      rfl
    · rw [OpenClass.refuse, OpenClass.refuse, hk]
      rfl
  cases ts with
  | nil =>
    refine .of_eq (hsingle fun hdash ↦ ?_) (.ok ⟨rfl, rfl⟩)
    cases heof.symm.trans hdash
  | cons dash ts =>
    rw [item]
    by_cases hdash : dash.kind = .operator '-'
    · set k' : OpenClass := { k with item := .range c dash.offset }
      have hrange : k.step dash = some (.inl k') := by
        rw [OpenClass.step, hk]
        exact if_pos hdash
      rw [if_pos hdash]
      refine .step heof (step_inside b groups hrange) ?_
      by_cases hclose : (word eof ts).kind = .operator ']'
      · have hdangling : k'.step (word eof ts) = some (.inr (k.add (.ofList [c, '-'])).set) := by
          rw [OpenClass.step]
          simp only [k', OpenClass.literal?_of_close hclose]
          rw [OpenClass.close_eq hclose, CharSet.singleton_eq_ofList, CharSet.singleton_eq_ofList,
            OpenClass.add_add]
          rfl
        have hlisted : (k.add (.ofList [c, '-'])).step (word eof ts) =
            some (.inr (k.add (.ofList [c, '-'])).set) := OpenClass.begin_eq_close hclose _
        have hclosed := (runBy_of_step_word heof (step_closeClass b groups hdangling)).trans
          (runBy_of_step_word heof (step_closeClass b groups hlisted)).symm
        rw [if_pos hclose]
        exact .of_eq hclosed (.ok ⟨rfl, rfl⟩)
      · rw [if_neg hclose]
        cases hliteral : (word eof ts).kind.literal? with
        | some d =>
          have hstep : k'.step (word eof ts) =
              some (.inl (k.add (.ofList (CharSet.range c d).items))) := by
            rw [OpenClass.step]
            simp only [k', hliteral]
            rw [← CharSet.eq_ofList_items (CharSet.negated_range c d)]
            rfl
          exact .step heof (step_inside b groups hstep) (.ok ⟨rfl, rfl⟩)
        | none =>
          have hrefuses : k'.step (word eof ts) = none := by
            rw [OpenClass.step]
            simp only [k', hliteral]
            exact if_neg hclose
          exact .refused heof (refuses_of_class b groups hrefuses) rfl
    · rw [if_neg hdash]
      exact .of_eq (hsingle hdash) (.ok ⟨rfl, rfl⟩)

/-- The state machine reads the items of a class as `items` does. -/
theorem items_leads {k : OpenClass} (hk : k.item = .none) (ts : List Token) :
    Leads eof ⟨b, groups, some k⟩ ts (items eof k.opened ts) fun found st' ts' ↦
      ts' = found.2.1 ∧ st' = ⟨b.push (.set (k.setWith found.1)), groups, none⟩ := by
  have hrefuse : ∀ t, k.refuse t =
      if t.kind = .endOfPattern then .unclosedClass k.opened t else .unexpectedInClass t := by
    intro t
    rw [OpenClass.refuse, hk]
  have hbegin : ∀ t, k.step t = OpenClass.step.begin t k := by
    intro t
    rw [OpenClass.step, hk]
  cases ts with
  | nil =>
    rw [items]
    exact congrArg Except.error ((hrefuse eof).trans (if_pos heof))
  | cons t ts =>
    rw [items]
    by_cases hclose : t.kind = .operator ']'
    · have hstep : k.step t = some (.inr k.set) :=
        (hbegin t).trans (OpenClass.begin_eq_close hclose k)
      rw [if_pos hclose]
      refine .step heof (step_closeClass b groups hstep) (.ok ⟨rfl, ?_⟩)
      rw [OpenClass.setWith_nil]
    · rw [if_neg hclose]
      cases hliteral : t.kind.literal? with
      | some c =>
        have hstep : k.step t = some (.inl { k with item := .first c }) := by
          rw [hbegin, OpenClass.step.begin, hliteral]
        refine .step heof (step_inside b groups hstep) ?_
        refine (item_leads heof b groups rfl ts).bind ?_
        rintro ⟨cs, rest⟩ _ _ ⟨rfl, rfl⟩
        refine (items_leads rfl rest.1).bind ?_
        rintro ⟨ds, rest'⟩ _ _ ⟨rfl, rfl⟩
        exact .ok ⟨rfl, by rw [← OpenClass.setWith_add]; rfl⟩
      | none =>
        have hrefuses : k.step t = none := by
          rw [hbegin, OpenClass.step.begin, hliteral]
          exact if_neg hclose
        exact .refused heof (refuses_of_class b groups hrefuses) (hrefuse t)
termination_by ts.length
decreasing_by grind

/-- The state machine reads a class as `charClass` does. -/
theorem charClass_leads (opened : Nat) (ts : List Token) :
    Leads eof ⟨b, groups, some (.start opened)⟩ ts (charClass eof opened ts) fun found st' ts' ↦
      ts' = found.2.1 ∧ st' = ⟨b.push (.set found.1), groups, none⟩ := by
  rw [charClass]
  by_cases hcaret : (word eof ts).kind = .operator '^'
  · have hstep : (OpenClass.start opened).step (word eof ts) =
        some (.inl { OpenClass.start opened with negated := true, item := .none }) :=
      if_pos hcaret
    rw [if_pos hcaret]
    refine .step heof (step_inside b groups hstep) ?_
    refine (items_leads heof b groups rfl ts.tail).bind ?_
    rintro ⟨cs, rest⟩ _ _ ⟨rfl, rfl⟩
    refine .ok ⟨rfl, ?_⟩
    rw [OpenClass.setWith_negated]
  · have hstep : (OpenClass.start opened).step (word eof ts) =
        { OpenClass.start opened with item := .none }.step (word eof ts) := if_neg hcaret
    rw [if_neg hcaret]
    refine .of_eq (runBy_class_congr b groups hstep rfl) ?_
    refine (items_leads heof b groups rfl ts).bind ?_
    rintro ⟨cs, rest⟩ _ _ ⟨rfl, rfl⟩
    refine .ok ⟨rfl, ?_⟩
    rw [← OpenClass.setWith_start opened]
    rfl

end

/-! ## Expressions are read alike -/

/-- No term begins with the token. -/
structure NoTerm (t : Token) : Prop where
  group : t.kind ≠ .operator '('
  charClass : t.kind ≠ .operator '['
  empty : t.kind ≠ .emptyString
  literal : t.kind.literal? = none

/-- An expression that does not go on with the token. -/
structure Complete (b : Branches) (t : Token) : Prop where
  isBlank : b.isBlank = false
  noTerm : NoTerm t
  bar : t.kind ≠ .operator '|'
  star : t.kind = .operator '*' → b.starrable = false

section

variable {t : Token} {b : Branches} {groups : List (Nat × Branches)}

theorem noTerm_of_end (h : t.kind = .endOfPattern) : NoTerm t := by
  constructor <;> simp [h, TokenKind.literal?]

theorem star?_of_starrable (h : b.starrable = false) : b.star? = none := by
  rw [Branches.star?, h]

theorem star?_of_isBlank (h : b.isBlank = true) : b.star? = none := by
  obtain ⟨finished, terms, starrable⟩ := b
  have hterms : terms = [] := List.isEmpty_iff.mp (Bool.and_eq_true_iff.mp h).2
  rw [hterms]
  cases starrable <;> rfl

/-- The operators behind terms are refused where they are not expected. -/
theorem refuses_of_noTerm (h : NoTerm t) (hstar : t.kind = .operator '*' → b.star? = none)
    (hbar : t.kind = .operator '|' → b.isBlank = true)
    (hclose : t.kind = .operator ')' → b.isBlank = true ∨ groups = [])
    (hend : t.kind = .endOfPattern → b.isBlank = true ∨ groups ≠ []) :
    Refuses ⟨b, groups, none⟩ t := by
  constructor
  · cases hk : t.kind with
    | char c =>
      have hliteral := h.literal
      rw [hk] at hliteral
      cases hliteral
    | emptyString => exact absurd hk h.empty
    | endOfPattern => simp only [State.step, hk]
    | operator c =>
      rw [step_operator b groups hk]
      refine Option.eq_none_iff_forall_ne_some.mpr fun st hstep ↦ ?_
      cases operates_of_operate hstep with
      | literal hc =>
        have hliteral := h.literal
        rw [hk, hc] at hliteral
        cases hliteral
      | openGroup => exact h.group hk
      | openClass => exact h.charClass hk
      | star hs =>
        rw [hstar hk] at hs
        cases hs
      | bar hb =>
        rw [hbar hk] at hb
        cases hb
      | closeGroup hgroups hb =>
        rcases hclose hk with hblank | hnil
        · rw [hblank] at hb
          cases hb
        · rw [hnil] at hgroups
          cases hgroups
  · intro ht
    rcases hend ht with hblank | hne
    · cases groups with
      | nil => exact if_pos hblank
      | cons => rfl
    · cases groups with
      | nil => exact absurd rfl hne
      | cons => rfl

/-- Behind a complete expression, only its closing bracket or an end is not refused. -/
theorem Complete.refuses (h : Complete b t) (hclose : t.kind = .operator ')' → groups = [])
    (hend : t.kind = .endOfPattern → groups ≠ []) : Refuses ⟨b, groups, none⟩ t :=
  refuses_of_noTerm h.noTerm (fun ht ↦ star?_of_starrable (h.star ht)) (absurd · h.bar)
    (fun ht ↦ .inr (hclose ht)) (fun ht ↦ .inr (hend ht))

end

section

variable {eof : Token}

mutual

/-- The state machine reads an expression as `expr` does. -/
theorem expr_leads (heof : eof.kind = .endOfPattern) (groups : List (Nat × Branches))
    (ts : List Token) :
    Leads eof ⟨.start, groups, none⟩ ts (expr eof ts) fun found st' ts' ↦
      ts' = found.2.1 ∧ ∃ b, st' = ⟨b, groups, none⟩ ∧ Complete b (word eof ts') ∧
        b.expr = found.1 := by
  rw [expr]
  refine (terms_leads heof .start groups ts fun _ ↦ rfl).bind ?_
  rintro ⟨⟨rs, _⟩, hle⟩ _ rest ⟨rfl, hterm, starrable, hstar, rfl⟩
  cases rs with
  | nil =>
    have hblank : Branches.isBlank ⟨[], [], starrable⟩ = true := rfl
    refine .refused heof (refuses_of_noTerm hterm (fun _ ↦ star?_of_isBlank hblank)
      (fun _ ↦ hblank) (fun _ ↦ .inl hblank) (fun _ ↦ .inl hblank)) ?_
    rfl
  | cons r rs =>
    have hblank : Branches.isBlank ⟨[], (r :: rs).reverse ++ [], starrable⟩ = false := by
      simp [Branches.isBlank]
    refine (branches_leads heof _ groups rest hblank hterm hstar).bind ?_
    rintro ⟨bs, rest'⟩ _ _ ⟨rfl, b, rfl, hcomplete, halternatives⟩
    refine .ok ⟨rfl, b, rfl, hcomplete, ?_⟩
    rw [b.expr_eq, halternatives, Branches.last_eq, List.append_nil, List.reverse_reverse]
    rfl
termination_by (ts.length, 3)
decreasing_by all_goals grind

/-- The state machine reads branches as `branches` does. -/
theorem branches_leads (heof : eof.kind = .endOfPattern) (b : Branches)
    (groups : List (Nat × Branches)) (ts : List Token) (hblank : b.isBlank = false)
    (hterm : NoTerm (word eof ts))
    (hstar : (word eof ts).kind = .operator '*' → b.starrable = false) :
    Leads eof ⟨b, groups, none⟩ ts (branches eof ts) fun found st' ts' ↦
      ts' = found.2.1 ∧ ∃ b', st' = ⟨b', groups, none⟩ ∧ Complete b' (word eof ts') ∧
        (b'.last :: b'.finished).reverse = (b.last :: b.finished).reverse ++ found.1 := by
  cases ts with
  | nil =>
    rw [branches]
    have hbar : (word eof []).kind ≠ .operator '|' := fun hbar ↦ by cases heof.symm.trans hbar
    exact .ok ⟨rfl, b, rfl, ⟨hblank, hterm, hbar, hstar⟩, (List.append_nil _).symm⟩
  | cons t ts =>
    rw [branches]
    by_cases hbar : t.kind = .operator '|'
    · rw [if_pos hbar]
      refine .step heof (step_bar b groups hbar hblank) ?_
      refine (terms_leads heof b.next groups ts fun _ ↦ rfl).bind ?_
      rintro ⟨⟨rs, _⟩, hle⟩ _ rest ⟨rfl, hterm', starrable, hstar', rfl⟩
      refine (branches_leads heof _ groups rest rfl hterm' hstar').bind ?_
      rintro ⟨bs, rest'⟩ _ _ ⟨rfl, b', rfl, hcomplete, halternatives⟩
      refine .ok ⟨rfl, b', rfl, hcomplete, ?_⟩
      have hlast : Branches.last ⟨b.next.finished, rs.reverse ++ b.next.terms, starrable⟩ =
          ofTerms rs := by
        rw [Branches.last_eq]
        simp [Branches.next]
      rw [halternatives, hlast, List.reverse_cons, List.append_assoc]
      rfl
    · rw [if_neg hbar]
      exact .ok ⟨rfl, b, rfl, ⟨hblank, hterm, hbar, hstar⟩, (List.append_nil _).symm⟩
termination_by (ts.length, 0)
decreasing_by all_goals grind

/-- The state machine reads terms as `terms` does. -/
theorem terms_leads (heof : eof.kind = .endOfPattern) (b : Branches)
    (groups : List (Nat × Branches)) (ts : List Token)
    (hstar : (word eof ts).kind = .operator '*' → b.starrable = false) :
    Leads eof ⟨b, groups, none⟩ ts (terms eof ts) fun found st' ts' ↦
      ts' = found.1.2 ∧ NoTerm (word eof ts') ∧
        ∃ starrable, ((word eof ts').kind = .operator '*' → starrable = false) ∧
          st' = ⟨⟨b.finished, found.1.1.reverse ++ b.terms, starrable⟩, groups, none⟩ := by
  rw [terms]
  refine (rep_leads heof b groups ts).bind ?_
  rintro (_ | ⟨r, rest⟩) st' ts' hpost
  · obtain ⟨rfl, rfl, hterm⟩ := hpost
    exact .ok ⟨rfl, hterm, b.starrable, hstar, rfl⟩
  · obtain ⟨rfl, starrable, hstar', rfl⟩ := hpost
    refine (terms_leads heof _ groups rest.1 hstar').bind ?_
    rintro ⟨⟨rs, _⟩, hle⟩ _ rest' ⟨rfl, hterm, starrable', hstar'', rfl⟩
    refine .ok ⟨rfl, hterm, starrable', hstar'', ?_⟩
    rw [List.reverse_cons, List.append_assoc]
    rfl
termination_by (ts.length, 2)
decreasing_by all_goals grind

/-- The state machine reads a term and its star as `rep` does. -/
theorem rep_leads (heof : eof.kind = .endOfPattern) (b : Branches)
    (groups : List (Nat × Branches)) (ts : List Token) :
    Leads eof ⟨b, groups, none⟩ ts (rep eof ts) fun found st' ts' ↦
      match found with
      | none => ts' = ts ∧ st' = ⟨b, groups, none⟩ ∧ NoTerm (word eof ts)
      | some (r, rest) => ts' = rest.1 ∧
          ∃ starrable, ((word eof ts').kind = .operator '*' → starrable = false) ∧
            st' = ⟨⟨b.finished, r :: b.terms, starrable⟩, groups, none⟩ := by
  rw [rep]
  refine (term_leads heof b groups ts).bind ?_
  rintro (_ | ⟨r, rest⟩) st' ts' hpost
  · exact .ok hpost
  · obtain ⟨rfl, rfl⟩ := hpost
    dsimp only
    split
    · next hstar =>
      exact .step heof (step_star groups hstar) (.ok ⟨rfl, false, fun _ ↦ rfl, rfl⟩)
    · next hstar => exact .ok ⟨rfl, true, (absurd · hstar), rfl⟩
termination_by (ts.length, 1)
decreasing_by all_goals grind

/-- The state machine reads a term as `term` does. -/
theorem term_leads (heof : eof.kind = .endOfPattern) (b : Branches)
    (groups : List (Nat × Branches)) (ts : List Token) :
    Leads eof ⟨b, groups, none⟩ ts (term eof ts) fun found st' ts' ↦
      match found with
      | none => ts' = ts ∧ st' = ⟨b, groups, none⟩ ∧ NoTerm (word eof ts)
      | some (r, rest) => ts' = rest.1 ∧ st' = ⟨b.push r, groups, none⟩ := by
  cases ts with
  | nil =>
    rw [term]
    exact .ok ⟨rfl, rfl, noTerm_of_end heof⟩
  | cons t ts =>
    rw [term]
    by_cases hgroup : t.kind = .operator '('
    · rw [if_pos hgroup]
      refine .step heof (step_openGroup b groups hgroup) ?_
      refine (expr_leads heof ((t.offset, b) :: groups) ts).bind ?_
      rintro ⟨r, rest⟩ _ _ ⟨rfl, inner, rfl, hcomplete, rfl⟩
      dsimp only
      split
      · next hclose =>
        exact .step heof (step_closeGroup inner groups hclose hcomplete.isBlank) (.ok ⟨rfl, rfl⟩)
      · next hclose =>
        refine .refused heof (hcomplete.refuses (absurd · hclose) (fun _ ↦ List.cons_ne_nil _ _)) ?_
        exact if_neg (Bool.not_eq_true _ ▸ hcomplete.isBlank)
    rw [if_neg hgroup]
    by_cases hclass : t.kind = .operator '['
    · rw [if_pos hclass]
      refine .step heof (step_openClass b groups hclass) ?_
      refine (charClass_leads heof b groups t.offset ts).bind ?_
      rintro ⟨s, rest⟩ _ _ ⟨rfl, rfl⟩
      exact .ok ⟨rfl, rfl⟩
    rw [if_neg hclass]
    by_cases hempty : t.kind = .emptyString
    · rw [if_pos hempty]
      exact .step heof (step_empty b groups hempty) (.ok ⟨rfl, rfl⟩)
    rw [if_neg hempty]
    cases hliteral : t.kind.literal? with
    | some c =>
      have hstep := step_literal b groups (literal?_eq_some_iff.mp hliteral)
      exact .step heof hstep (.ok ⟨rfl, rfl⟩)
    | none => exact .ok ⟨rfl, rfl, hgroup, hclass, hempty, hliteral⟩
termination_by (ts.length, 0)
decreasing_by all_goals grind

end

end

end Descent

/-- The functions and the states read alike. -/
theorem descend_eq (ts : List Token) : descend ts = parseTokens ts := by
  have heof : (impliedEnd ts).kind = .endOfPattern := rfl
  have h := Descent.expr_leads heof [] ts
  rw [State.parseTokens_eq_runBy, descend]
  dsimp only
  cases hexpr : Descent.expr (impliedEnd ts) ts with
  | error e =>
    rw [hexpr] at h
    exact h.symm
  | ok found =>
    rw [hexpr] at h
    obtain ⟨_, _, ⟨rfl, b, rfl, hcomplete, hr⟩, hrun⟩ := h
    rw [State.start, hrun]
    change (if _ then _ else _) = _
    split
    · next hend =>
      have hresult : State.result? ⟨b, [], none⟩ = some found.1 := by
        rw [← hr]
        exact if_neg (Bool.not_eq_true _ ▸ hcomplete.isBlank)
      rw [State.runBy_of_end hend, State.finish, hresult]
      rfl
    · next hend =>
      have hrefuses : State.Refuses ⟨b, [], none⟩ (word (impliedEnd ts) found.2.1) :=
        hcomplete.refuses (fun _ ↦ rfl) (absurd · hend)
      rw [State.runBy_of_refuses heof hrefuses, State.refuse]
      exact congrArg Except.error (if_neg (Bool.not_eq_true _ ▸ hcomplete.isBlank)).symm

end RegexScan.Pattern
