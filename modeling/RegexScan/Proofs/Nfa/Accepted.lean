import RegexScan.Proofs.Nfa.Thompson
import RegexScan.Proofs.Regex.Ends

/-!
# What an automaton accepts after an expression is added

An automaton whose start is never entered again can take up one expression after the other: each
adds its texts, with its value, and no text of one ever goes on in another.
-/

namespace RegexScan.Nfa

variable {α : Type}

/-- Every state that is mentioned exists, and no transition leads to the start. -/
structure Rooted (nfa : Nfa α) : Prop extends nfa.InRange where
  unentered : ∀ {s : Nat} {t : Transition}, t ∈ nfa.transitionsFrom s → t.target ≠ nfa.start

theorem rooted_initial : (initial : Nfa α).Rooted := by
  have hnone : ∀ s, (initial : Nfa α).transitionsFrom s = [] := by
    intro s
    cases s <;> rfl
  refine ⟨⟨Nat.zero_lt_one, ?_⟩, ?_⟩ <;> intro s t ht <;> rw [hnone] at ht <;>
    exact absurd ht List.not_mem_nil

/-- The automaton of the single state 0 accepts nothing. -/
theorem accepted_initial (w : List Char) : (initial : Nfa α).accepted w = ∅ := by
  ext a
  simp only [accepted, Set.mem_ofPred_eq, Set.mem_empty_iff_false, iff_false]
  rintro ⟨t, -, ht⟩
  cases t <;> cases ht

/-- The values that a text leads to from some state. -/
def acceptedFrom (nfa : Nfa α) (a : α) (s : Nat) : Language Char :=
  {w | ∃ t, nfa.Path s w t ∧ nfa.accepting? t = some a}

/-- What leads to a value is a labelling. -/
theorem labelling_acceptedFrom (nfa : Nfa α) (a : α) : nfa.Labelling (nfa.acceptedFrom a) := by
  rintro s ⟨on, t⟩ ht _ ⟨u, hu, v, ⟨e, he, ha⟩, rfl⟩
  cases on with
  | none =>
    obtain rfl : u = [] := hu
    exact ⟨e, .free ht he, ha⟩
  | some k =>
    obtain ⟨c, hc, rfl⟩ := Regex.mem_language_set.mp hu
    exact ⟨e, .char ht hc he, ha⟩

/-- The label of a state that is never entered can be raised. -/
theorem Labelling.update {nfa : Nfa α} {X : Nat → Language Char} {r : Nat} {A : Language Char}
    (hX : nfa.Labelling X) (hne : ∀ s, ∀ t ∈ nfa.transitionsFrom s, t.target ≠ r) (h : X r ≤ A) :
    nfa.Labelling (Function.update X r A) := by
  intro s t ht
  rw [Function.update_of_ne (hne s t ht)]
  by_cases hs : s = r
  · subst hs
    rw [Function.update_self]
    exact (hX s t ht).trans h
  · rw [Function.update_of_ne hs]
    exact hX s t ht

/-! ## Adding one expression -/

section

variable (nfa : Nfa α) (r : Regex) (a : α)

theorem addRegex_eq :
    nfa.addRegex r a =
      (((nfa.addFragment r).1.addFree nfa.start (nfa.addFragment r).2.entry).setAccepting
        (nfa.addFragment r).2.exit a, (nfa.addFragment r).2) := rfl

theorem transitionsFrom_addRegex (s : Nat) :
    (nfa.addRegex r a).1.transitionsFrom s =
      ((nfa.addFragment r).1.addFree nfa.start (nfa.addFragment r).2.entry).transitionsFrom s :=
  transitionsFrom_setAccepting ..

theorem start_addRegex : (nfa.addRegex r a).1.start = nfa.start :=
  (extends_addFragment nfa r).1.start_eq

theorem size_addRegex : (nfa.addRegex r a).1.size = (nfa.addFragment r).1.size := by
  rw [addRegex_eq, size_setAccepting, size_addFree]

/-- Of the new automaton's states only the exit of the fragment gets the value. -/
theorem accepting?_addRegex (s : Nat) :
    (nfa.addRegex r a).1.accepting? s =
      if s = (nfa.addFragment r).2.exit then some a else nfa.accepting? s := by
  obtain ⟨hext, hf⟩ := extends_addFragment nfa r
  rw [addRegex_eq]
  split
  · next h =>
    subst h
    exact accepting?_setAccepting_self (by rw [size_addFree]; exact hf.exit_lt) a
  · next h =>
    rw [accepting?_congr (getElem?_setAccepting_of_ne a h), addFree, accepting?_addTransition,
      hext.accepting?_eq]

variable {nfa r a}

/-- The states there were keep their values and transitions, and the start alone gets one more,
into the new fragment. -/
theorem transitionsFrom_addRegex_of_lt {s : Nat} (hr : nfa.InRange) (hs : s < nfa.size) :
    (nfa.addRegex r a).1.transitionsFrom s =
      nfa.transitionsFrom s ++
        if s = nfa.start then [⟨none, (nfa.addRegex r a).2.entry⟩] else [] := by
  have hext := (extends_addFragment nfa r).1
  have hold := transitionsFrom_congr (hext.getElem?_eq s hs)
  rw [transitionsFrom_addRegex, addFree]
  split
  · next h =>
    subst h
    rw [transitionsFrom_addTransition_self (Nat.lt_of_lt_of_le hr.start_lt hext.size_le), hold]
    rfl
  · next h =>
    rw [transitionsFrom_congr (getElem?_addTransition_of_ne _ h), hold, List.append_nil]

theorem accepting?_addRegex_of_lt {s : Nat} (hs : s < nfa.size) :
    (nfa.addRegex r a).1.accepting? s = nfa.accepting? s := by
  have hle := (extends_addFragment nfa r).2.le_exit
  rw [accepting?_addRegex, if_neg (by omega)]

theorem target_mem_addRegex (hr : nfa.InRange) {s : Nat} {t : Transition}
    (ht : t ∈ (nfa.addRegex r a).1.transitionsFrom s) :
    t ∈ nfa.transitionsFrom s ∨ nfa.size ≤ t.target ∧ t.target < (nfa.addRegex r a).1.size := by
  obtain ⟨hext, hf⟩ := extends_addFragment nfa r
  rw [transitionsFrom_addRegex, addFree, mem_transitionsFrom_addTransition
    (Nat.lt_of_lt_of_le hr.start_lt hext.size_le)] at ht
  rw [size_addRegex]
  rcases ht with ht | ⟨-, rfl⟩
  · exact hext.target_mem s t ht
  · exact .inr ⟨hf.le_entry, hf.entry_lt⟩

/-- Adding an expression keeps an automaton rooted, so that more can be added. -/
theorem Rooted.addRegex (h : nfa.Rooted) (r : Regex) (a : α) : (nfa.addRegex r a).1.Rooted := by
  have hle : nfa.size ≤ (nfa.addRegex r a).1.size := by
    rw [size_addRegex]
    exact (extends_addFragment nfa r).1.size_le
  refine ⟨⟨?_, ?_⟩, ?_⟩
  · rw [start_addRegex]
    exact Nat.lt_of_lt_of_le h.start_lt hle
  · intro s t ht
    rcases target_mem_addRegex h.toInRange ht with ht | ⟨-, hlt⟩
    · exact Nat.lt_of_lt_of_le (h.target_lt ht) hle
    · exact hlt
  · intro s t ht
    rw [start_addRegex]
    rcases target_mem_addRegex h.toInRange ht with ht | ⟨hge, -⟩
    · exact h.unentered ht
    · exact fun heq ↦ absurd (heq ▸ h.start_lt) (Nat.not_lt.mpr hge)

/-- Old words are still accepted, and the words of the expression with the new value. -/
theorem subset_accepted_addRegex (hr : nfa.InRange) (w : List Char) :
    nfa.accepted w ∪ {b | b = a ∧ w ∈ r.language} ⊆ (nfa.addRegex r a).1.accepted w := by
  obtain ⟨hext, hf⟩ := extends_addFragment nfa r
  have hsub : ∀ s, (nfa.addFragment r).1.transitionsFrom s ⊆
      (nfa.addRegex r a).1.transitionsFrom s := by
    intro s
    rw [transitionsFrom_addRegex]
    exact transitionsFrom_subset_addTransition ..
  rintro b (⟨t, ht, hb⟩ | ⟨rfl, hw⟩)
  · refine ⟨t, ?_, ?_⟩
    · rw [start_addRegex]
      exact (ht.mono hext.subset).mono hsub
    · rw [accepting?_addRegex_of_lt (lt_size_of_accepting? hb), hb]
  · refine ⟨(nfa.addFragment r).2.exit, ?_, ?_⟩
    · have hfirst : ⟨none, (nfa.addFragment r).2.entry⟩ ∈
          (nfa.addRegex r b).1.transitionsFrom nfa.start := by
        rw [transitionsFrom_addRegex_of_lt hr hr.start_lt, if_pos rfl]
        exact List.mem_append_right _ (List.mem_singleton_self _)
      rw [start_addRegex]
      exact .free hfirst ((path_addFragment nfa r hw).mono hsub)
    · rw [accepting?_addRegex, if_pos rfl]

/-- The label of the start grows by the texts of the expression followed by that of the new exit. -/
theorem exists_labelling_addRegex (h : nfa.Rooted) (b : α) {K : Language Char}
    (hK : a = b → [] ∈ K) :
    ∃ Z : Nat → Language Char, (nfa.addRegex r a).1.Labelling Z ∧
      Z nfa.start = nfa.acceptedFrom b nfa.start + r.language * K ∧
      ∀ t, (nfa.addRegex r a).1.accepting? t = some b → [] ∈ Z t := by
  obtain ⟨hext, hf⟩ := extends_addFragment nfa r
  obtain ⟨Y, hY, hYX, hin, hout⟩ :=
    labelling_addFragment nfa r h.toInRange (labelling_acceptedFrom nfa b) K
  let A := nfa.acceptedFrom b nfa.start + r.language * K
  have hstart : Y nfa.start ≤ A := by
    rw [hYX _ h.start_lt]
    exact le_add_of_nonneg_right bot_le
  have hne : ∀ s, ∀ t ∈ (nfa.addFragment r).1.transitionsFrom s, t.target ≠ nfa.start := by
    intro s t ht
    rcases hext.target_mem s t ht with ht | ⟨hge, -⟩
    · exact h.unentered ht
    · exact fun heq ↦ absurd (heq ▸ h.start_lt) (Nat.not_lt.mpr hge)
  have hother : ∀ s, nfa.size ≤ s → Function.update Y nfa.start A s = Y s := by
    intro s hs
    exact Function.update_of_ne (Nat.lt_of_lt_of_le h.start_lt hs).ne' ..
  have hZ := (hY.update hne hstart).addFree (t := (nfa.addFragment r).2.entry)
    (Nat.lt_of_lt_of_le h.start_lt hext.size_le) (by
      rw [Function.update_self, hother _ hf.le_entry]
      exact hin.trans (le_add_of_nonneg_left bot_le))
  refine ⟨Function.update Y nfa.start A, ?_, Function.update_self .., ?_⟩
  · intro s t ht
    rw [transitionsFrom_addRegex] at ht
    exact hZ s t ht
  · intro t ht
    rw [accepting?_addRegex] at ht
    split at ht
    · next hexit =>
      rw [hexit, hother _ hf.le_exit]
      exact hout (hK (Option.some.inj ht))
    · have hmem : [] ∈ nfa.acceptedFrom b t := ⟨t, .refl t, ht⟩
      by_cases hs : t = nfa.start
      · rw [hs, Function.update_self]
        exact .inl (hs ▸ hmem)
      · rw [Function.update_of_ne hs, hYX t (lt_size_of_accepting? ht)]
        exact hmem

/-- Nothing else is accepted: a path either keeps to the old states or goes through the
new fragment. -/
theorem accepted_addRegex_subset (h : nfa.Rooted) (w : List Char) :
    (nfa.addRegex r a).1.accepted w ⊆ nfa.accepted w ∪ {b | b = a ∧ w ∈ r.language} := by
  rintro b ⟨t, ht, hb⟩
  -- behind the new exit nothing is left to read, and only if the value is the new one
  let K : Language Char := {v | v = [] ∧ b = a}
  obtain ⟨Z, hZ, hstart, hend⟩ :=
    exists_labelling_addRegex (r := r) (a := a) h b (K := K) fun hab ↦ ⟨rfl, hab.symm⟩
  rw [start_addRegex] at ht
  have hw := hZ.append_mem ht (hend t hb)
  rw [List.append_nil, hstart] at hw
  rcases hw with hw | ⟨u, hu, v, ⟨rfl, hba⟩, huw⟩
  · exact .inl hw
  · obtain rfl : u = w := by simpa using huw
    exact .inr ⟨hba, hu⟩

/-- An added expression adds the texts that it matches, and no others. -/
theorem accepted_addRegex (h : nfa.Rooted) (w : List Char) :
    (nfa.addRegex r a).1.accepted w = nfa.accepted w ∪ {b | b = a ∧ w ∈ r.language} :=
  (accepted_addRegex_subset h w).antisymm (subset_accepted_addRegex h.toInRange w)

end

/-! ## Adding several expressions -/

/-- Add expressions one after the other, each with its value. -/
def addRegexes (nfa : Nfa α) (rules : List (Regex × α)) : Nfa α :=
  rules.foldl (fun nfa rule ↦ (nfa.addRegex rule.1 rule.2).1) nfa

theorem Rooted.addRegexes {nfa : Nfa α} (h : nfa.Rooted) (rules : List (Regex × α)) :
    (nfa.addRegexes rules).Rooted := by
  induction rules generalizing nfa with
  | nil => exact h
  | cons rule rules ih => exact ih (h.addRegex rule.1 rule.2)

/-- An automaton built by adding expressions accepts each word with the values of the
expressions that it matches. -/
theorem accepted_addRegexes {nfa : Nfa α} (h : nfa.Rooted) (rules : List (Regex × α))
    (w : List Char) :
    (nfa.addRegexes rules).accepted w =
      nfa.accepted w ∪ {a | ∃ r, (r, a) ∈ rules ∧ w ∈ r.language} := by
  induction rules generalizing nfa with
  | nil => simp [addRegexes]
  | cons rule rules ih =>
    change ((nfa.addRegex rule.1 rule.2).1.addRegexes rules).accepted w = _
    rw [ih (h.addRegex rule.1 rule.2), accepted_addRegex h, Set.union_assoc]
    congr 1
    ext a
    constructor
    · rintro (⟨rfl, hw⟩ | ⟨r, hr, hw⟩)
      · exact ⟨rule.1, List.mem_cons_self, hw⟩
      · exact ⟨r, List.mem_cons_of_mem _ hr, hw⟩
    · rintro ⟨r, hr, hw⟩
      rcases List.mem_cons.mp hr with rfl | hr
      · exact .inl ⟨rfl, hw⟩
      · exact .inr ⟨r, hr, hw⟩

/-- Adding an expression adds exactly the texts that it matches, with its value; nothing else
changes but for one free transition from the start; and as the start stays without transitions to
it, the same holds again for whatever is added next. -/
theorem addRegex_adds_exactly_language {nfa : Nfa α} (h : nfa.Rooted) (r : Regex) (a : α) :
    (∀ w, (nfa.addRegex r a).1.accepted w = nfa.accepted w ∪ {b | b = a ∧ w ∈ r.language}) ∧
      (∀ s < nfa.size,
        (nfa.addRegex r a).1.transitionsFrom s = nfa.transitionsFrom s ++
            (if s = nfa.start then [⟨none, (nfa.addRegex r a).2.entry⟩] else []) ∧
          (nfa.addRegex r a).1.accepting? s = nfa.accepting? s) ∧
      (nfa.addRegex r a).1.start = nfa.start ∧
      (nfa.addRegex r a).1.Rooted ∧
      ∀ (rules : List (Regex × α)) (w : List Char),
        ((nfa.addRegex r a).1.addRegexes rules).accepted w =
          nfa.accepted w ∪ {b | ∃ r', (r', b) ∈ (r, a) :: rules ∧ w ∈ r'.language} :=
  ⟨accepted_addRegex h,
    fun _ hs ↦ ⟨transitionsFrom_addRegex_of_lt h.toInRange hs, accepting?_addRegex_of_lt hs⟩,
    start_addRegex nfa r a, h.addRegex r a, fun rules ↦ accepted_addRegexes h ((r, a) :: rules)⟩

/-- A star in a star beside a literal: each text keeps to its own value. -/
theorem addRegex_star_star :
    let nfa : Nfa Nat := (initial.addRegex (.literal 'a') 1).1
    let r : Regex := .star (.star (.literal 'b'))
    nfa.Rooted ∧ 2 ∈ (nfa.addRegex r 2).1.accepted "bb".toList ∧
      2 ∉ (nfa.addRegex r 2).1.accepted "a".toList := by
  intro nfa r
  have h : nfa.Rooted := rooted_initial.addRegex (.literal 'a') 1
  have hmem : ∀ text : String, 2 ∈ (nfa.addRegex r 2).1.accepted text.toList ↔
      r.fullMatch text = true := by
    intro text
    rw [(addRegex_adds_exactly_language h r 2).1, accepted_addRegex rooted_initial,
      accepted_initial, Regex.fullMatch_iff]
    simp
  refine ⟨h, (hmem "bb").mpr (by cbv), ?_⟩
  rw [hmem "a", show r.fullMatch "a" = false by cbv]
  exact Bool.false_ne_true

end RegexScan.Nfa
