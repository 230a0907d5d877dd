import RegexScan.Proofs.CharSet.Canonical
import RegexScan.Proofs.Pattern.Grammar

/-!
# Reading a class follows the grammar

An open class stands for the words that may go on with it and the sets it becomes by them.  Each
token takes these words and sets to those of the next state, so a class is read exactly as the
grammar says.
-/

namespace RegexScan.Pattern

section

variable {k l : TokenKind} {w : List TokenKind} {c : Char} {cs : List Char}

theorem isItems_nil_iff : IsItems [] cs ↔ cs = [] := by
  constructor
  · intro h
    cases h
    rfl
  · rintro rfl
    exact .nil

theorem not_isItems_cons (hk : ∀ c, ¬IsLiteral k c) : ¬IsItems (k :: w) cs := by
  rintro (_ | ⟨h, _, _⟩ | ⟨h, _, _⟩ | h) <;> exact hk _ h

/-- Which token a literal comes from does not matter. -/
theorem IsItems.congr (h : IsItems (k :: w) cs) (hk : IsLiteral k c) (hl : IsLiteral l c) :
    IsItems (l :: w) cs := by
  have heq : ∀ d, IsLiteral k d → d = c := fun d hd ↦
    Option.some.inj ((literal?_eq_some_iff.mpr hd).symm.trans (literal?_eq_some_iff.mpr hk))
  cases h with
  | single hd hhead hrest =>
    obtain rfl := heq _ hd
    exact .single hl hhead hrest
  | range hd hlast hrest =>
    obtain rfl := heq _ hd
    exact .range hl hlast hrest
  | dangling hd =>
    obtain rfl := heq _ hd
    exact .dangling hl

theorem isItems_singleton_iff : IsItems [.char c] cs ↔ cs = [c] := by
  constructor
  · intro h
    cases h with
    | single hc _ hrest =>
      cases hc
      cases hrest
      rfl
  · rintro rfl
    exact .single (.char c) nofun .nil

/-- A literal that no dash follows is an item by itself. -/
theorem isItems_single_iff (hk : k ≠ .operator '-') :
    IsItems (.char c :: k :: w) cs ↔ ∃ ds, cs = c :: ds ∧ IsItems (k :: w) ds := by
  constructor
  · intro h
    cases h with
    | single hc _ hrest =>
      cases hc
      exact ⟨_, rfl, hrest⟩
    | range => exact absurd rfl hk
    | dangling => exact absurd rfl hk
  · rintro ⟨ds, rfl, h⟩
    exact .single (.char c) (fun hhead ↦ hk (Option.some.inj hhead)) h

/-- A dash at the end is an item like any other. -/
theorem isItems_dangling_iff : IsItems [.char c, .operator '-'] cs ↔ cs = [c, '-'] := by
  constructor
  · intro h
    cases h with
    | single _ hhead _ => exact absurd rfl hhead
    | dangling hc =>
      cases hc
      rfl
  · rintro rfl
    exact .dangling (.char c)

/-- A literal, a dash and a literal list a range. -/
theorem isItems_range_iff :
    IsItems (.char c :: .operator '-' :: k :: w) cs ↔
      ∃ d ds, IsLiteral k d ∧ cs = (CharSet.range c d).items ++ ds ∧ IsItems w ds := by
  constructor
  · intro h
    cases h with
    | single _ hhead _ => exact absurd rfl hhead
    | range hc hlast hrest =>
      cases hc
      exact ⟨_, _, hlast, rfl, hrest⟩
  · rintro ⟨d, ds, hlast, rfl, hrest⟩
    exact .range (.char c) hlast hrest

end

/-- What of an item has been read. -/
def ClassItem.pending : ClassItem → List TokenKind
  | .opening => []
  | .none => []
  | .first c => [.char c]
  | .range c _ => [.char c, .operator '-']

namespace OpenClass

/-- The set if more characters are listed. -/
def setWith (k : OpenClass) (cs : List Char) : CharSet := (k.add (.ofList cs)).set

theorem setWith_nil (k : OpenClass) : k.setWith [] = k.set := by
  simp only [setWith, add, set, CharSet.union_empty]

theorem add_add (k : OpenClass) (cs ds : List Char) :
    (k.add (.ofList cs)).add (.ofList ds) = k.add (.ofList (cs ++ ds)) := by
  simp only [add, CharSet.union_assoc, CharSet.ofList_union_ofList]

/-- Characters listed in two steps are listed together. -/
theorem setWith_add (k : OpenClass) (cs ds : List Char) :
    (k.add (.ofList cs)).setWith ds = k.setWith (cs ++ ds) := by
  rw [setWith, add_add, setWith]

theorem set_add (k : OpenClass) (cs : List Char) : (k.add (.ofList cs)).set = k.setWith cs := rfl

/-- A word of items goes on with a class up to its end. -/
def Lists (k : OpenClass) (w : List TokenKind) (s : CharSet) : Prop :=
  ∃ cs, IsItems (k.item.pending ++ w) cs ∧ s = k.setWith cs

/-- So does a word behind the opening bracket, where a `^` is no item. -/
def Continues (k : OpenClass) (w : List TokenKind) (s : CharSet) : Prop :=
  match k.item with
  | .opening =>
    (∃ v, w = .operator '^' :: v ∧ { k with negated := true, item := .none }.Lists v s) ∨
      w.head? ≠ some (.operator '^') ∧ k.Lists w s
  | _ => k.Lists w s

theorem setWith_start (opened : Nat) (cs : List Char) : (start opened).setWith cs = .ofList cs := by
  change CharSet.empty ∪ .ofList cs = _
  rw [CharSet.empty_eq_ofList, CharSet.ofList_union_ofList, List.nil_append]

theorem setWith_negated (opened : Nat) (cs : List Char) :
    { start opened with negated := true, item := .none }.setWith cs = (CharSet.ofList cs).compl :=
  congrArg CharSet.compl (setWith_start opened cs)

/-- What goes on with a class that has just begun is a class. -/
theorem continues_start_iff {opened : Nat} {w : List TokenKind} {s : CharSet} :
    (start opened).Continues w s ↔ IsClass w s := by
  constructor
  · rintro (⟨v, rfl, cs, h, rfl⟩ | ⟨hhead, cs, h, rfl⟩)
    · rw [setWith_negated]
      exact .negated h
    · rw [setWith_start]
      exact .listed hhead h
  · rintro (⟨hhead, h⟩ | h)
    · exact .inr ⟨hhead, _, h, (setWith_start _ _).symm⟩
    · exact .inl ⟨_, rfl, _, h, (setWith_negated _ _).symm⟩

section

variable {k : OpenClass} {t : Token} {w : List TokenKind} {s : CharSet}

/-! ## Where no item is at hand -/

/-- A class without a pending item ends as it is. -/
theorem lists_nil_iff (hk : k.item.pending = []) : k.Lists [] s ↔ k.set = s := by
  rw [Lists, hk, List.nil_append, eq_comm]
  simp only [isItems_nil_iff, exists_eq_left, setWith_nil]

/-- A class without a pending item takes the next token as the beginning of one. -/
theorem lists_cons_iff (hk : k.item.pending = []) :
    k.Lists (t.kind :: w) s ↔ ∃ k', step.begin t k = some (.inl k') ∧ k'.Continues w s := by
  rw [Lists, hk, List.nil_append, step.begin]
  cases hliteral : t.kind.literal? with
  | some c =>
    have hc := literal?_eq_some_iff.mp hliteral
    constructor
    · rintro ⟨cs, h, rfl⟩
      exact ⟨_, rfl, cs, h.congr hc (.char c), rfl⟩
    · rintro ⟨k', hk', hcontinues⟩
      cases hk'
      obtain ⟨cs, h, rfl⟩ := hcontinues
      exact ⟨cs, h.congr (.char c) hc, rfl⟩
  | none =>
    constructor
    · rintro ⟨cs, h, -⟩
      exact absurd h (not_isItems_cons (literal?_eq_none_iff.mp hliteral))
    · rintro ⟨k', hk', -⟩
      simp only [step.close] at hk'
      split at hk' <;> cases hk'

/-! ## Where a character is at hand -/

/-- A pending character that no dash follows is an item by itself. -/
theorem lists_single_iff {c : Char} (hk : k.item = .first c)
    (hw : w.head? ≠ some (.operator '-')) :
    k.Lists w s ↔ (k.add (.singleton c)).Lists w s := by
  have hitems : ∀ cs, IsItems ([.char c] ++ w) cs ↔ ∃ ds, cs = [c] ++ ds ∧ IsItems w ds := by
    intro cs
    cases w with
    | nil =>
      rw [List.append_nil, isItems_singleton_iff]
      simp only [isItems_nil_iff, exists_eq_right, List.append_nil]
    | cons l w => exact isItems_single_iff fun hl ↦ hw (congrArg some hl)
  rw [Lists, hk, Lists, CharSet.singleton_eq_ofList]
  constructor
  · rintro ⟨cs, h, rfl⟩
    obtain ⟨ds, rfl, hrest⟩ := (hitems cs).mp h
    exact ⟨ds, hrest, (setWith_add k [c] ds).symm⟩
  · rintro ⟨ds, h, rfl⟩
    exact ⟨[c] ++ ds, (hitems _).mpr ⟨ds, rfl, h⟩, setWith_add k [c] ds⟩

/-! ## Where a dash follows it -/

/-- A pending character and dash at the end are two items. -/
theorem lists_dangling_iff {c : Char} {dash : Nat} (hk : k.item = .range c dash) :
    k.Lists [] s ↔ ((k.add (.singleton c)).add (.singleton '-')).set = s := by
  rw [Lists, hk, CharSet.singleton_eq_ofList, CharSet.singleton_eq_ofList, add_add, set_add]
  simp only [ClassItem.pending, List.append_nil, isItems_dangling_iff, exists_eq_left]
  exact eq_comm

/-- A pending character and dash become a range with the next literal. -/
theorem lists_range_iff {c : Char} {dash : Nat} {l : TokenKind} (hk : k.item = .range c dash) :
    k.Lists (l :: w) s ↔ ∃ d, IsLiteral l d ∧ (k.add (.range c d)).Lists w s := by
  have hrange : ∀ d, CharSet.range c d = .ofList (CharSet.range c d).items := fun d ↦
    CharSet.eq_ofList_items (CharSet.negated_range c d)
  rw [Lists, hk]
  constructor
  · rintro ⟨cs, h, rfl⟩
    obtain ⟨d, ds, hl, rfl, hrest⟩ := isItems_range_iff.mp h
    exact ⟨d, hl, ds, hrest, by rw [hrange, setWith_add, ← hrange]⟩
  · rintro ⟨d, hl, ds, h, rfl⟩
    exact ⟨_, isItems_range_iff.mpr ⟨d, ds, hl, rfl, h⟩, by rw [hrange, setWith_add, ← hrange]⟩

/-! ## Each state -/

theorem kind_ne_of_close (ht : t.kind = .operator ']') {c : Char} (hc : c ≠ ']') :
    t.kind ≠ .operator c := by
  intro h
  exact hc (TokenKind.operator.inj (h.symm.trans ht))

theorem literal?_of_close (ht : t.kind = .operator ']') : t.kind.literal? = none := by
  rw [ht]
  rfl

theorem close_eq (ht : t.kind = .operator ']') (k : OpenClass) :
    step.close t k = some (.inr k.set) := if_pos ht

/-- At the bracket a new item cannot begin: the class closes. -/
theorem begin_eq_close (ht : t.kind = .operator ']') (k : OpenClass) :
    step.begin t k = some (.inr k.set) := by
  rw [step.begin, ht]
  exact close_eq ht k

/-- A class takes its closing bracket and characters, and stays where it was opened. -/
theorem step_cases {next : OpenClass ⊕ CharSet} (h : k.step t = some next) :
    (t.kind = .operator ']' ∧ ∃ s, next = .inr s) ∨
      ∃ k' c, next = .inl k' ∧ t.kind.literal? = some c ∧ k'.opened = k.opened := by
  have hclose : ∀ k' : OpenClass, step.close t k' = some next →
      t.kind = .operator ']' ∧ ∃ s, next = .inr s := by
    intro k' hk'
    rw [step.close] at hk'
    split at hk'
    · next ht => exact ⟨ht, _, (Option.some.inj hk').symm⟩
    · cases hk'
  have hbegin : ∀ k' : OpenClass, k'.opened = k.opened → step.begin t k' = some next →
      (t.kind = .operator ']' ∧ ∃ s, next = .inr s) ∨
        ∃ k' c, next = .inl k' ∧ t.kind.literal? = some c ∧ k'.opened = k.opened := by
    intro k' hopened hk'
    rw [step.begin] at hk'
    split at hk'
    · next c hc => exact .inr ⟨_, c, (Option.some.inj hk').symm, hc, hopened⟩
    · exact .inl (hclose k' hk')
  rw [step] at h
  split at h
  · split at h
    · next ht => exact .inr ⟨_, '^', (Option.some.inj h).symm, by rw [ht]; rfl, rfl⟩
    · exact hbegin k rfl h
  · exact hbegin k rfl h
  · split at h
    · next ht => exact .inr ⟨_, '-', (Option.some.inj h).symm, by rw [ht]; rfl, rfl⟩
    · exact hbegin (k.add (.singleton _)) rfl h
  · split at h
    · next d hd => exact .inr ⟨_, d, (Option.some.inj h).symm, hd, rfl⟩
    · exact .inl (hclose _ h)

/-- Only a closing bracket ends a class. -/
theorem kind_of_step_eq_inr (h : k.step t = some (.inr s)) : t.kind = .operator ']' := by
  rcases step_cases h with ⟨ht, -⟩ | ⟨k', c, hnext, -, -⟩
  · exact ht
  · cases hnext

/-- A closing bracket is always taken. -/
theorem exists_step_close (ht : t.kind = .operator ']') (k : OpenClass) :
    ∃ s, k.step t = some (.inr s) := by
  rw [step]
  cases k.item with
  | opening => exact ⟨_, (if_neg (kind_ne_of_close ht (by decide))).trans (begin_eq_close ht k)⟩
  | none => exact ⟨_, begin_eq_close ht k⟩
  | first c => exact ⟨_, (if_neg (kind_ne_of_close ht (by decide))).trans (begin_eq_close ht _)⟩
  | range c dash =>
    simp only [literal?_of_close ht]
    exact ⟨_, close_eq ht _⟩

/-- A closing bracket ends the class with its set if a word may end here. -/
theorem continues_nil_iff (ht : t.kind = .operator ']') :
    k.Continues [] s ↔ k.step t = some (.inr s) := by
  rw [Continues, step]
  cases hk : k.item with
  | opening =>
    have hlists := lists_nil_iff (s := s) (k := k) (by rw [hk]; rfl)
    have hne : t.kind ≠ .operator '^' := kind_ne_of_close ht (by decide)
    simp only [hne, if_false, begin_eq_close ht, Option.some.injEq, Sum.inr.injEq]
    rw [← hlists]
    constructor
    · rintro (⟨v, hv, -⟩ | ⟨-, h⟩)
      · cases hv
      · exact h
    · exact fun h ↦ .inr ⟨nofun, h⟩
  | none =>
    simp only [begin_eq_close ht, Option.some.injEq, Sum.inr.injEq]
    exact lists_nil_iff (by rw [hk]; rfl)
  | first c =>
    have hne : t.kind ≠ .operator '-' := kind_ne_of_close ht (by decide)
    simp only [hne, if_false, begin_eq_close ht, Option.some.injEq, Sum.inr.injEq]
    exact (lists_single_iff hk (by simp)).trans (lists_nil_iff rfl)
  | range c dash =>
    simp only [literal?_of_close ht, close_eq ht, Option.some.injEq, Sum.inr.injEq]
    exact lists_dangling_iff hk

/-- Any other token goes on with the class if the words behind it do. -/
theorem continues_cons_iff :
    k.Continues (t.kind :: w) s ↔ ∃ k', k.step t = some (.inl k') ∧ k'.Continues w s := by
  rw [Continues, step]
  cases hk : k.item with
  | opening =>
    by_cases ht : t.kind = .operator '^'
    · simp only [ht, if_true, Option.some.injEq, Sum.inl.injEq, exists_eq_left']
      constructor
      · rintro (⟨v, hv, h⟩ | ⟨hne, -⟩)
        · cases hv
          exact h
        · exact absurd rfl hne
      · exact fun h ↦ .inl ⟨w, rfl, h⟩
    · simp only [ht, if_false]
      rw [← lists_cons_iff (by rw [hk]; rfl)]
      constructor
      · rintro (⟨v, hv, -⟩ | ⟨-, h⟩)
        · exact absurd (List.cons.inj hv).1 ht
        · exact h
      · exact fun h ↦ .inr ⟨fun hhead ↦ ht (Option.some.inj hhead), h⟩
  | none => exact lists_cons_iff (by rw [hk]; rfl)
  | first c =>
    by_cases ht : t.kind = .operator '-'
    · simp only [ht, if_true, Option.some.injEq, Sum.inl.injEq, exists_eq_left']
      rw [Lists, hk]
      rfl
    · have hhead : (t.kind :: w).head? ≠ some (.operator '-') := fun h ↦ ht (Option.some.inj h)
      simp only [ht, if_false]
      rw [lists_single_iff hk hhead]
      exact lists_cons_iff rfl
  | range c dash =>
    simp only
    rw [lists_range_iff hk]
    cases hliteral : t.kind.literal? with
    | some d =>
      simp only [← literal?_eq_some_iff, hliteral, Option.some.injEq, Sum.inl.injEq,
        exists_eq_left']
      rfl
    | none =>
      have hnone := literal?_eq_none_iff.mp hliteral
      constructor
      · rintro ⟨d, hd, -⟩
        exact absurd hd (hnone d)
      · rintro ⟨k', hk', -⟩
        simp only [step.close] at hk'
        split at hk' <;> cases hk'

end

end OpenClass

end RegexScan.Pattern
