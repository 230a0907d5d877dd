import RegexScan.Proofs.Pattern.Kinds
import RegexScan.Proofs.Regex.Language

/-!
# Patterns joined by bars

A bar between two patterns is an operator, unless the first pattern ends with a backslash that has
nothing to escape: then the bar is what it escapes.  Otherwise the patterns are the alternatives of
the joined one.
-/

namespace RegexScan.Pattern

/-! ## Tokens on both sides of a bar -/

/-- What a bar behind a pattern means. -/
def barBehind (p : List Char) : TokenKind := if dangles p then .char '|' else .operator '|'

/-- The tokens of two patterns with a bar between them. -/
theorem kinds_append_bar (p q : List Char) :
    kinds (p ++ '|' :: q) = kinds p ++ barBehind p :: kinds q := by
  -- from token to token, so that the bar is reached either on its own or behind a backslash
  induction p using escape_induction with
  | nil => exact kinds_cons (by decide) q
  | dangling => exact kinds_escape '|' q
  | escape c p ih =>
    rw [List.cons_append, List.cons_append, kinds_escape, kinds_escape, ih]
    rfl
  | plain c p hc ih =>
    have hbar : barBehind (c :: p) = barBehind p := by rw [barBehind, dangles_cons hc, barBehind]
    rw [List.cons_append, kinds_cons hc, kinds_cons hc, ih, hbar]
    rfl

/-! ## Expressions on both sides of a bar -/

section

variable {v w : List TokenKind} {rs bs cs : List Regex}

theorem IsBranches.append (h : IsBranches v bs) (h' : IsBranches w cs) :
    IsBranches (v ++ w) (bs ++ cs) := by
  induction bs generalizing v with
  | nil =>
    cases h
    exact h'
  | cons b bs ih =>
    cases h with
    | cons hreps h =>
      rw [List.append_assoc]
      exact .cons hreps (ih h)

/-- Further terms belong to the last alternative. -/
theorem IsBranches.extend (h : IsBranches v bs) (hbs : bs ≠ []) (h' : IsReps w rs) :
    ∃ bs', IsBranches (v ++ w) bs' := by
  -- on the trees, because the derivation is one of a mutual family
  induction bs generalizing v with
  | nil => exact absurd rfl hbs
  | cons b bs ih =>
    cases h with
    | cons hreps h =>
      rw [List.append_assoc]
      cases bs with
      | nil =>
        cases h
        have hcons := IsBranches.cons (hreps.append h') .nil
        rw [List.append_nil] at hcons
        exact ⟨_, hcons⟩
      | cons b' bs =>
        obtain ⟨bs', hbs'⟩ := ih h (List.cons_ne_nil b' bs)
        exact ⟨_, .cons hreps hbs'⟩

/-- An expression is one alternative or several. -/
theorem IsExpr.isAlternatives {r : Regex} (h : IsExpr w r) :
    ∃ bs, IsAlternatives w bs ∧ r = ofBranches bs := by
  cases h with
  | branches hreps hne hbranches => exact ⟨_, .mk hreps hne hbranches, rfl⟩

namespace IsAlternatives

theorem append (h : IsAlternatives v bs) (h' : IsBranches w cs) :
    IsAlternatives (v ++ w) (bs ++ cs) := by
  cases h with
  | mk hreps hne hbranches =>
    rw [List.append_assoc]
    exact .mk hreps hne (hbranches.append h')

theorem extend (h : IsAlternatives v bs) (h' : IsReps w rs) :
    ∃ bs', IsAlternatives (v ++ w) bs' := by
  cases h with
  | @mk v₀ v₁ rs₀ bs hreps hne hbranches =>
    rw [List.append_assoc]
    cases bs with
    | nil =>
      cases hbranches
      have hmk := IsAlternatives.mk (hreps.append h') (List.append_ne_nil_of_left_ne_nil hne _) .nil
      rw [List.append_nil] at hmk
      exact ⟨_, hmk⟩
    | cons b bs =>
      obtain ⟨bs', hbs'⟩ := hbranches.extend (List.cons_ne_nil b bs) h'
      exact ⟨_, .mk hreps hne hbs'⟩

/-- A bar that is an operator puts alternatives side by side. -/
theorem bar (h : IsAlternatives v bs) (h' : IsAlternatives w cs) :
    IsAlternatives (v ++ .operator '|' :: w) (bs ++ cs) := by
  cases h' with
  | mk hreps _ hbranches => exact h.append (.cons hreps hbranches)

/-- A bar that is a character becomes a part of the alternatives beside it. -/
theorem escapedBar (h : IsAlternatives v bs) (h' : IsAlternatives w cs) :
    ∃ ds, IsAlternatives (v ++ .char '|' :: w) ds := by
  cases h' with
  | @mk w₀ w₁ _ _ hreps _ hbranches =>
    obtain ⟨bs', hbs'⟩ := h.extend (.cons (.once (.literal (.char '|'))) hreps)
    have happend := hbs'.append hbranches
    rw [List.append_assoc] at happend
    exact ⟨_, happend⟩

end IsAlternatives

end

/-! ## What joined patterns match -/

theorem language_ofTerms (rs : List Regex) :
    (ofTerms rs).language = Regex.languageOfSeq rs := by
  match rs with
  | [] => rfl
  | [r] => exact (mul_one r.language).symm
  | _ :: _ :: _ => rfl

/-- Branches match one or the other. -/
theorem language_ofBranches (bs : List Regex) :
    (ofBranches bs).language = Regex.languageOfAlt bs := by
  match bs with
  | [] => rfl
  | [r] => exact (add_zero r.language).symm
  | _ :: _ :: _ => rfl

/-- Two patterns with a bar between them are a pattern.  It matches what one of them
does, if the bar is not escaped. -/
theorem exists_parse_append_bar {p q : String} {r s : Regex} (hp : parse p = .ok r)
    (hq : parse q = .ok s) :
    ∃ t, parse (p ++ "|" ++ q) = .ok t ∧
      (dangles p.toList = false → t.language = r.language + s.language) := by
  have hkinds : kinds (p ++ "|" ++ q).toList =
      kinds p.toList ++ barBehind p.toList :: kinds q.toList := by
    rw [String.toList_append, String.toList_append, List.append_assoc]
    exact kinds_append_bar p.toList q.toList
  obtain ⟨bs, hbs, rfl⟩ := (parse_eq_ok_iff.mp hp).isAlternatives
  obtain ⟨cs, hcs, rfl⟩ := (parse_eq_ok_iff.mp hq).isAlternatives
  simp only [parse_eq_ok_iff, hkinds, barBehind]
  cases dangles p.toList with
  | true =>
    obtain ⟨ds, hds⟩ := hbs.escapedBar hcs
    exact ⟨_, hds.isExpr, nofun⟩
  | false =>
    refine ⟨_, (hbs.bar hcs).isExpr, fun _ ↦ ?_⟩
    simp only [language_ofBranches, Regex.languageOfAlt_append]

/-- Well-formed patterns stay well formed when they are joined by bars.  What they match then is
what some of them matches, if no bar is escaped. -/
theorem exists_parse_intercalate {ps : List String} {trees : List Regex} (hps : ps ≠ [])
    (h : ps.map parse = trees.map .ok) :
    ∃ joined, parse ("|".intercalate ps) = .ok joined ∧
      ((∀ p ∈ ps.dropLast, dangles p.toList = false) →
        joined.language = (Regex.alt trees).language) := by
  induction ps generalizing trees with
  | nil => exact absurd rfl hps
  | cons p ps ih =>
    obtain ⟨r, rest, rfl, hp, hrest⟩ := List.map_eq_cons_iff.mp h.symm
    cases ps with
    | nil =>
      obtain rfl := List.map_eq_nil_iff.mp hrest
      refine ⟨r, ?_, fun _ ↦ (add_zero r.language).symm⟩
      rw [String.intercalate_singleton]
      exact hp.symm
    | cons q ps =>
      obtain ⟨joined, hjoined, hlanguage⟩ := ih (List.cons_ne_nil q ps) hrest.symm
      obtain ⟨t, ht, hbar⟩ := exists_parse_append_bar hp.symm hjoined
      refine ⟨t, ?_, fun hdangles ↦ ?_⟩
      · rw [String.intercalate_cons_cons]
        exact ht
      · rw [List.dropLast_cons_cons, List.forall_mem_cons] at hdangles
        rw [hbar hdangles.1, hlanguage hdangles.2]
        rfl

end RegexScan.Pattern
