import RegexScan.Proofs.Pattern.CharClass

/-!
# What a state has read

A state holds the trees of what has been read so far: for each open group the alternatives and
terms in it, and for an open class the words that may go on with it.  Every token keeps this true,
so a stream that is accepted is an expression, and of the tree that is returned.
-/

namespace RegexScan.Pattern

/-- Words and the trees of their alternatives, of which there is at least one. -/
inductive IsAlternatives : List TokenKind → List Regex → Prop
  | mk {v w : List TokenKind} {rs bs : List Regex} :
      IsReps v rs → rs ≠ [] → IsBranches w bs → IsAlternatives (v ++ w) (ofTerms rs :: bs)

theorem IsAlternatives.isExpr {w : List TokenKind} {bs : List Regex} (h : IsAlternatives w bs) :
    IsExpr w (ofBranches bs) := by
  cases h with
  | mk hreps hne hbranches => exact .branches hreps hne hbranches

/-- A branch behind a bar is one alternative more. -/
theorem IsAlternatives.concat {v w : List TokenKind} {rs bs : List Regex}
    (h : IsAlternatives v bs) (h' : IsReps w rs) :
    IsAlternatives (v ++ .operator '|' :: w) (bs ++ [ofTerms rs]) := by
  cases h with
  | mk hreps hne hbranches =>
    rw [List.append_assoc]
    exact .mk hreps hne (hbranches.concat h')

/-- The terms of an alternative, newest first.  A star may follow if the last one has none. -/
inductive ReadsTerms : List TokenKind → List Regex → Bool → Prop
  | fixed {w : List TokenKind} {rs : List Regex} : IsReps w rs.reverse → ReadsTerms w rs false
  | starrable {v w : List TokenKind} {r : Regex} {rs : List Regex} :
      IsReps v rs.reverse → IsTerm w r → ReadsTerms (v ++ w) (r :: rs) true

/-- What was read is a sequence of terms, starred or not. -/
theorem ReadsTerms.isReps {w : List TokenKind} {rs : List Regex} {starrable : Bool}
    (h : ReadsTerms w rs starrable) : IsReps w rs.reverse := by
  cases h with
  | fixed h => exact h
  | starrable h hterm =>
    rw [List.reverse_cons]
    exact h.append (.singleton (.once hterm))

/-- A star may follow a term that has none. -/
theorem ReadsTerms.star {w : List TokenKind} {r : Regex} {rs : List Regex}
    (h : ReadsTerms w (r :: rs) true) :
    ReadsTerms (w ++ [.operator '*']) (.star r :: rs) false := by
  cases h with
  | starrable h hterm =>
    apply ReadsTerms.fixed
    rw [List.reverse_cons, List.append_assoc]
    exact h.append (.singleton (.star hterm))

/-- The part of an expression read so far. -/
inductive ReadsBranches : List TokenKind → Branches → Prop
  | first {w : List TokenKind} {terms : List Regex} {starrable : Bool} :
      ReadsTerms w terms starrable → ReadsBranches w ⟨[], terms, starrable⟩
  | later {v w : List TokenKind} {b : Regex} {bs terms : List Regex} {starrable : Bool} :
      IsAlternatives v (b :: bs).reverse → ReadsTerms w terms starrable →
        ReadsBranches (v ++ .operator '|' :: w) ⟨b :: bs, terms, starrable⟩

namespace Branches

theorem last_eq (b : Branches) : b.last = ofTerms b.terms.reverse := by
  obtain ⟨finished, terms, starrable⟩ := b
  match terms with
  | [] => rfl
  | [r] => rfl
  | r :: r' :: rs =>
    refine (ofTerms_of_two_le ?_).symm
    rw [List.length_reverse]
    exact Nat.le_add_left ..

theorem expr_eq (b : Branches) : b.expr = ofBranches (b.last :: b.finished).reverse := by
  obtain ⟨finished, terms, starrable⟩ := b
  match finished with
  | [] => rfl
  | b :: bs =>
    refine (ofBranches_of_two_le ?_).symm
    rw [List.length_reverse]
    exact Nat.le_add_left ..

/-- A star repeats the last term if that has no star. -/
theorem star?_eq_some {b b' : Branches} (h : b.star? = some b') :
    ∃ finished r rs, b = ⟨finished, r :: rs, true⟩ ∧ b' = ⟨finished, .star r :: rs, false⟩ := by
  obtain ⟨finished, terms, starrable⟩ := b
  match starrable, terms with
  | true, r :: rs =>
    cases h
    exact ⟨finished, r, rs, rfl, rfl⟩

end Branches

namespace ReadsBranches

variable {w : List TokenKind} {b b' : Branches}

theorem start : ReadsBranches [] .start := .first (.fixed .nil)

theorem push {v : List TokenKind} {r : Regex} (h : ReadsBranches w b) (hr : IsTerm v r) :
    ReadsBranches (w ++ v) (b.push r) := by
  cases h with
  | first h => exact .first (.starrable h.isReps hr)
  | later hbranches h =>
    rw [List.append_assoc]
    exact .later hbranches (.starrable h.isReps hr)

theorem star (h : ReadsBranches w b) (hstar : b.star? = some b') :
    ReadsBranches (w ++ [.operator '*']) b' := by
  obtain ⟨finished, r, rs, rfl, rfl⟩ := Branches.star?_eq_some hstar
  cases h with
  | first h => exact .first h.star
  | later hbranches h =>
    rw [List.append_assoc]
    exact .later hbranches h.star

/-- Branches that are not blank have read alternatives. -/
theorem isAlternatives (h : ReadsBranches w b) (hb : b.isBlank = false) :
    IsAlternatives w (b.last :: b.finished).reverse := by
  rw [b.last_eq]
  cases h with
  | @first w terms starrable h =>
    have hne : terms.reverse ≠ [] := by
      rintro hnil
      rw [List.reverse_eq_nil_iff.mp hnil] at hb
      cases hb
    have hmk := IsAlternatives.mk h.isReps hne .nil
    rwa [List.append_nil] at hmk
  | later hbranches h =>
    rw [List.reverse_cons]
    exact hbranches.concat h.isReps

theorem next (h : ReadsBranches w b) (hb : b.isBlank = false) :
    ReadsBranches (w ++ [.operator '|']) b.next :=
  .later (h.isAlternatives hb) (.fixed .nil)

theorem isExpr (h : ReadsBranches w b) (hb : b.isBlank = false) : IsExpr w b.expr := by
  rw [b.expr_eq]
  exact (h.isAlternatives hb).isExpr

end ReadsBranches

namespace State

/-- What an operator does outside of classes, to the innermost expression and the groups around
it. -/
inductive Operates (b : Branches) (groups : List (Nat × Branches)) (offset : Nat) :
    Char → State → Prop
  | literal {c : Char} : (TokenKind.operator c).literal? = some c →
      Operates b groups offset c ⟨b.push (.literal c), groups, none⟩
  | openGroup : Operates b groups offset '(' ⟨.start, (offset, b) :: groups, none⟩
  | openClass : Operates b groups offset '[' ⟨b, groups, some (.start offset)⟩
  | star {b' : Branches} : b.star? = some b' → Operates b groups offset '*' ⟨b', groups, none⟩
  | bar : b.isBlank = false → Operates b groups offset '|' ⟨b.next, groups, none⟩
  | closeGroup {opened : Nat} {outer : Branches} {around : List (Nat × Branches)} :
      groups = (opened, outer) :: around → b.isBlank = false →
        Operates b groups offset ')' ⟨outer.push b.expr, around, none⟩

/-- An operator does nothing else. -/
theorem operates_of_operate {b : Branches} {groups : List (Nat × Branches)} {offset : Nat}
    {c : Char} {st : State} (h : operate ⟨b, groups, none⟩ offset c = some st) :
    Operates b groups offset c st := by
  unfold operate at h
  -- the operators in the order of the parser: `^`, `-`, `(`, `[`, `*`, `|`, `)`, and any other
  split at h
  · cases h
    exact .literal rfl
  · cases h
    exact .literal rfl
  · cases h
    exact .openGroup
  · cases h
    exact .openClass
  · obtain ⟨b', hstar, rfl⟩ := Option.map_eq_some_iff.mp h
    exact .star hstar
  · split at h
    · cases h
    · next hb =>
      cases h
      exact .bar (Bool.not_eq_true _ ▸ hb)
  · split at h
    · next hgroups =>
      split at h
      · cases h
      · next hb =>
        cases h
        exact .closeGroup hgroups (Bool.not_eq_true _ ▸ hb)
    · cases h
  · cases h

end State

/-- The innermost expression, and around it the groups that are open. -/
inductive ReadsGroups : List TokenKind → Branches → List (Nat × Branches) → Prop
  | outermost {w : List TokenKind} {b : Branches} : ReadsBranches w b → ReadsGroups w b []
  | group {v w : List TokenKind} {b outer : Branches} {opened : Nat}
      {groups : List (Nat × Branches)} :
      ReadsGroups v outer groups → ReadsBranches w b →
        ReadsGroups (v ++ .operator '(' :: w) b ((opened, outer) :: groups)

/-- A change to the innermost expression that the grammar allows. -/
theorem ReadsGroups.extend {v w : List TokenKind} {b b' : Branches}
    {groups : List (Nat × Branches)} (h : ReadsGroups w b groups)
    (hb : ∀ u, ReadsBranches u b → ReadsBranches (u ++ v) b') : ReadsGroups (w ++ v) b' groups := by
  cases h with
  | outermost h => exact .outermost (hb _ h)
  | group hgroups h =>
    rw [List.append_assoc]
    exact .group hgroups (hb _ h)

/-- What a state has read. -/
inductive Reads : List TokenKind → State → Prop
  | outside {w : List TokenKind} {b : Branches} {groups : List (Nat × Branches)} :
      ReadsGroups w b groups → Reads w ⟨b, groups, none⟩
  | inside {v w : List TokenKind} {b : Branches} {groups : List (Nat × Branches)} {k : OpenClass} :
      ReadsGroups v b groups → (∀ u s, k.Continues u s → IsClass (w ++ u) s) →
        Reads (v ++ .operator '[' :: w) ⟨b, groups, some k⟩

namespace Reads

variable {w : List TokenKind} {st st' : State} {t : Token}

theorem start : Reads [] .start := .outside (.outermost .start)

/-- A term outside of classes. -/
theorem push {v : List TokenKind} {b : Branches} {groups : List (Nat × Branches)} {r : Regex}
    (h : ReadsGroups w b groups) (hr : IsTerm v r) :
    Reads (w ++ v) ⟨b.push r, groups, none⟩ :=
  .outside (h.extend fun _ hb ↦ hb.push hr)

/-- The end of a group. -/
theorem close {b outer : Branches} {opened : Nat} {groups : List (Nat × Branches)}
    (h : ReadsGroups w b ((opened, outer) :: groups)) (hb : b.isBlank = false) :
    Reads (w ++ [.operator ')']) ⟨outer.push b.expr, groups, none⟩ := by
  cases h with
  | group hgroups hinner =>
    rw [List.append_assoc]
    exact push hgroups (.group (hinner.isExpr hb))

/-- A state that finishes has read an expression. -/
theorem isExpr_of_finish {r : Regex} (h : Reads w st) (hfinish : st.finish t = .ok r) :
    IsExpr w r := by
  rw [State.finish] at hfinish
  split at hfinish
  · next hresult =>
    cases hfinish
    cases h with
    | inside => cases hresult
    | outside h =>
      cases h with
      | group => cases hresult
      | outermost h =>
        simp only [State.result?] at hresult
        split at hresult
        · cases hresult
        · next hb =>
          cases hresult
          exact h.isExpr (Bool.not_eq_true _ ▸ hb)
  · cases hfinish

/-- A token within a class. -/
theorem step_inside {v : List TokenKind} {b : Branches} {groups : List (Nat × Branches)}
    {k : OpenClass} (h : ReadsGroups v b groups)
    (hk : ∀ u s, k.Continues u s → IsClass (w ++ u) s)
    (hstep : State.step ⟨b, groups, some k⟩ t = some st') :
    Reads (v ++ .operator '[' :: w ++ [t.kind]) st' := by
  rw [State.step] at hstep
  obtain ⟨next, hnext, rfl⟩ := Option.map_eq_some_iff.mp hstep
  rw [List.append_assoc, List.cons_append]
  cases next with
  | inl k' =>
    refine .inside h ?_
    intro u s hu
    rw [List.append_assoc]
    exact hk _ s (OpenClass.continues_cons_iff.mpr ⟨k', hnext, hu⟩)
  | inr s =>
    have ht : t.kind = .operator ']' := OpenClass.kind_of_step_eq_inr hnext
    have hs := hk [] s ((OpenClass.continues_nil_iff ht).mpr hnext)
    rw [List.append_nil] at hs
    rw [ht]
    exact push h (.charClass hs)

/-- An operator outside of classes. -/
theorem operate {b : Branches} {groups : List (Nat × Branches)} {offset : Nat} {c : Char}
    (h : ReadsGroups w b groups) (hstep : State.operate ⟨b, groups, none⟩ offset c = some st') :
    Reads (w ++ [.operator c]) st' := by
  cases State.operates_of_operate hstep with
  | literal hc => exact push h (.literal (literal?_eq_some_iff.mp hc))
  | openGroup => exact .outside (.group h .start)
  | openClass => exact .inside h fun u s hu ↦ OpenClass.continues_start_iff.mp hu
  | star hstar => exact .outside (h.extend fun _ hb ↦ hb.star hstar)
  | bar hb => exact .outside (h.extend fun _ hu ↦ hu.next hb)
  | closeGroup hgroups hb =>
    subst hgroups
    exact close h hb

/-- Every step reads one more token. -/
theorem step (h : Reads w st) (hstep : st.step t = some st') : Reads (w ++ [t.kind]) st' := by
  cases h with
  | inside h hk => exact step_inside h hk hstep
  | outside h =>
    rw [State.step] at hstep
    cases ht : t.kind with
    | char c =>
      rw [ht] at hstep
      cases hstep
      exact push h (.literal (.char c))
    | emptyString =>
      rw [ht] at hstep
      cases hstep
      exact push h .empty
    | operator c =>
      rw [ht] at hstep
      exact operate h hstep
    | endOfPattern =>
      rw [ht] at hstep
      cases hstep

/-- What is left to read is a word up to the first end, and both together are an expression. -/
theorem isExpr_of_run {lastOffset : Nat} {ts : List Token} {r : Regex} (h : Reads w st)
    (hrun : st.run lastOffset ts = .ok r) : IsExpr (w ++ body ts) r := by
  induction ts generalizing w st lastOffset with
  | nil =>
    rw [State.run] at hrun
    rw [body_nil, List.append_nil]
    exact h.isExpr_of_finish hrun
  | cons t ts ih =>
    rw [State.run] at hrun
    split at hrun
    · next ht =>
      rw [body_cons_of_end ht, List.append_nil]
      exact h.isExpr_of_finish hrun
    · next ht =>
      split at hrun
      · next st' hstep =>
        rw [body_cons ht, List.append_cons]
        exact ih (h.step hstep) hrun
      · cases hrun

end Reads

/-- What parses is an expression of the grammar. -/
theorem isExpr_of_parseTokens {ts : List Token} {r : Regex} (h : parseTokens ts = .ok r) :
    IsExpr (body ts) r := Reads.start.isExpr_of_run h

end RegexScan.Pattern
