import RegexScan.Pattern.Parser
import RegexScan.Proofs.CharSet.Canonical
import RegexScan.Proofs.Dfa.Combinations
import RegexScan.Proofs.Nfa.Accepted

/-!
# What texts can reach

Every state but the first was found for a transition of an earlier one, so transitions lead to all
of them.  A text gets as far as transitions that some character can take.  Those are all of them
unless a set leaves out every character there is: such a set is a complement and counts as not
empty, so it gets its transition and its state like any other.
-/

namespace RegexScan

/-- A set that does not count as empty has a member, or else it lists all characters to leave them
out. -/
theorem CharSet.exists_mem_or_forall_mem_items {s : CharSet} (h : s.isEmpty = false) :
    (∃ c, c ∈ s) ∨ s.negated = true ∧ ∀ c, c ∈ s.items := by
  by_cases hex : ∃ c, c ∈ s
  · exact .inl hex
  · push Not at hex
    cases hs : s.negated with
    | false => rw [isEmpty_iff.mpr ⟨hs, hex⟩] at h; cases h
    | true =>
      refine .inr ⟨rfl, fun c ↦ ?_⟩
      by_contra hc
      exact hex c ((not_mem_items_iff.mp hc).mpr hs)

/-- No set of the automaton lists the character. -/
def Nfa.Unlisted {α : Type} (nfa : Nfa α) (c : Char) : Prop :=
  ∀ state ∈ nfa.states, ∀ t ∈ state.transitions, ∀ s ∈ t.on, c ∉ s.items

theorem Nfa.Unlisted.not_mem_items {α : Type} {nfa : Nfa α} {c : Char} (h : nfa.Unlisted c)
    {s : CharSet} {i j : Nat} (ht : ⟨some s, j⟩ ∈ nfa.transitionsFrom i) : c ∉ s.items := by
  rw [transitionsFrom] at ht
  split at ht
  · next state hstate => exact h state (Array.mem_of_getElem? hstate) _ ht s rfl
  · exact absurd ht List.not_mem_nil

namespace Dfa

variable {α : Type}

/-- Some transition leads from a state to another. -/
def Joins (dfa : Dfa α) (i j : Nat) : Prop := ∃ t ∈ dfa.transitionsFrom i, t.target = j

/-- Some character does. -/
def Passes (dfa : Dfa α) (i j : Nat) : Prop :=
  ∃ t ∈ dfa.transitionsFrom i, t.target = j ∧ ∃ c, c ∈ t.on

/-! ## Texts go where characters do -/

section

variable {dfa : Dfa α} {i j : Nat}

theorem Deterministic.step_eq (h : dfa.Deterministic) {t : Transition}
    (ht : t ∈ dfa.transitionsFrom i) {c : Char} (hc : c ∈ t.on) :
    dfa.step i c = some t.target := by
  have hmem : t ∈ (dfa.transitionsFrom i).filter (·.on.contains c) := List.mem_filter.mpr ⟨ht, hc⟩
  have hone : ((dfa.transitionsFrom i).filter (·.on.contains c)).length = 1 :=
    Nat.le_antisymm (h.length_filter_contains_le i c) (List.length_pos_of_mem hmem)
  obtain ⟨u, hu⟩ := List.length_eq_one_iff.mp hone
  rw [hu, List.mem_singleton] at hmem
  rw [step, ← List.head?_filter, hu, hmem]
  rfl

theorem passes_of_step {c : Char} (h : dfa.step i c = some j) : dfa.Passes i j := by
  obtain ⟨t, ht, rfl⟩ := Option.map_eq_some_iff.mp h
  have hc : t.on.contains c = true := List.find?_some (p := fun u : Transition ↦ u.on.contains c) ht
  exact ⟨t, List.mem_of_find?_eq_some ht, rfl, c, hc⟩

/-- Some text leads from one state to another exactly when transitions that hold a
character do. -/
theorem Deterministic.exists_steps_iff (h : dfa.Deterministic) :
    (∃ w, dfa.steps i w = some j) ↔ Relation.ReflTransGen dfa.Passes i j := by
  constructor
  · rintro ⟨w, hw⟩
    induction w generalizing i with
    | nil =>
      cases hw
      exact .refl
    | cons c w ih =>
      rw [steps] at hw
      cases hstep : dfa.step i c with
      | none =>
        rw [hstep] at hw
        cases hw
      | some k =>
        rw [hstep] at hw
        exact .head (passes_of_step hstep) (ih hw)
  · intro hpath
    induction hpath using Relation.ReflTransGen.head_induction_on with
    | refl => exact ⟨[], rfl⟩
    | head hpass _ ih =>
      obtain ⟨t, ht, rfl, c, hc⟩ := hpass
      obtain ⟨w, hw⟩ := ih
      refine ⟨c :: w, ?_⟩
      rw [steps, h.step_eq ht hc]
      exact hw

end

/-! ## Every state is found from an earlier one -/

section

variable [LinearOrder α] {nfa : Nfa α} {limit : Option Nat} {found found' : Found α}

/-- The closures that are new after a turn get transitions in that turn. -/
theorem exists_target_of_connect {ps : List (Piece Nat)} {ts : List Transition}
    (h : connect nfa limit found ps = .ok (found', ts)) {i : Nat} (hi : found.size ≤ i)
    (hi' : i < found'.size) : ∃ t ∈ ts, t.target = i := by
  induction ps generalizing found ts with
  | nil =>
    cases h
    exact absurd hi' (Nat.not_lt_of_le hi)
  | cons p ps ih =>
    obtain ⟨mid, j, us, hlocate, hconnect, rfl⟩ := connect_cons_eq_ok_iff.mp h
    by_cases hmid : mid.size ≤ i
    · obtain ⟨t, ht, htarget⟩ := ih hconnect hmid
      exact ⟨t, .tail _ ht, htarget⟩
    · -- only the closure of this piece can be new
      rcases locate_cases hlocate with ⟨rfl, -⟩ | ⟨rfl, rfl, -⟩
      · exact absurd hi hmid
      · rw [Array.size_push] at hmid
        exact ⟨_, List.mem_cons_self, by simp; omega⟩

/-- So all closures but the first have a transition from an earlier state. -/
theorem Underway.exists_earlier {w : Progress α} (h : Underway nfa limit w) {i : Nat} (hpos : 0 < i)
    (hi : i < w.found.size) :
    ∃ j < i, ∃ state, w.states[j]? = some state ∧ ∃ t ∈ state.transitions, t.target = i := by
  induction h with
  | refl => exact absurd hi (by simp [Progress.first]; omega)
  | tail _ hturn ih =>
    cases hturn with
    | @finish found found' states k ts hk hconnect =>
      obtain ⟨hlt, -⟩ := Array.getElem?_eq_some_iff.mp hk
      by_cases hnew : found.size ≤ i
      · obtain ⟨t, ht, htarget⟩ := exists_target_of_connect hconnect hnew hi
        exact ⟨states.size, by omega, _, Array.getElem?_push_size, t, ht, htarget⟩
      · obtain ⟨j, hj, state, hstate, htarget⟩ := ih (Nat.lt_of_not_le hnew)
        obtain ⟨hlt', -⟩ := Array.getElem?_eq_some_iff.mp hstate
        refine ⟨j, hj, state, ?_, htarget⟩
        rw [Array.getElem?_push_lt hlt', ← hstate, Array.getElem?_eq_getElem hlt']

variable {dfa : Dfa α}

/-- A transition from an earlier state leads to each state but the start. -/
theorem exists_joins_lt (h : determinize nfa limit = .ok dfa) {s : Nat} (hpos : 0 < s)
    (hs : s < dfa.size) : ∃ r < s, dfa.Joins r s := by
  obtain ⟨found, hunderway, hsize⟩ := exists_finished h
  obtain ⟨r, hr, state, hstate, t, ht, htarget⟩ := hunderway.exists_earlier hpos (hsize ▸ hs)
  refine ⟨r, hr, t, ?_, htarget⟩
  rw [transitionsFrom, hstate]
  exact ht

theorem joins_start (h : determinize nfa limit = .ok dfa) {s : Nat} (hs : s < dfa.size) :
    Relation.ReflTransGen dfa.Joins dfa.start s := by
  rw [start_eq_zero h]
  induction s using Nat.strongRecOn with
  | ind s ih =>
    rcases Nat.eq_zero_or_pos s with rfl | hpos
    · exact .refl
    · obtain ⟨r, hr, hjoins⟩ := exists_joins_lt h hpos hs
      exact (ih r hr (Nat.lt_trans hr hs)).tail hjoins

/-! ## Labels list what sets list -/

theorem Underway.exists_labels {w : Progress α} (h : Underway nfa limit w) {state : State α}
    (hstate : state ∈ w.states) :
    ∃ ss, state.transitions.map (·.on) = (partition (nfa.closureOf ss).labels).map (·.chars) := by
  induction h with
  | refl => exact absurd hstate (Array.not_mem_empty _)
  | tail hunderway hturn ih =>
    cases hturn with
    | finish hk hconnect =>
      rcases Array.mem_push.mp hstate with hstate | rfl
      · exact ih hstate
      · obtain ⟨ss, rfl, -⟩ := Underway.exists_starters hunderway (Array.mem_of_getElem? hk)
        exact ⟨ss, ((Underway.wired hunderway).toDistinct.connect hconnect).2.2.2⟩

/-- No label lists a character that the nondeterministic automaton does not list. -/
theorem not_mem_items_of_unlisted (h : determinize nfa limit = .ok dfa) {c : Char}
    (hc : nfa.Unlisted c) {s : Nat} {t : Transition} (ht : t ∈ dfa.transitionsFrom s) :
    c ∉ t.on.items := by
  rcases dfa.transitionsFrom_mem_or_nil s with ⟨state, hstate, heq⟩ | heq
  · obtain ⟨found, hunderway, -⟩ := exists_finished h
    obtain ⟨ss, hlabels⟩ := hunderway.exists_labels hstate
    have hon : t.on ∈ (partition (nfa.closureOf ss).labels).map (·.chars) :=
      hlabels ▸ List.mem_map_of_mem (heq ▸ ht)
    obtain ⟨p, hp, hchars⟩ := List.mem_map.mp hon
    rw [← hchars]
    refine Label.not_mem_items_partition (fun l hl ↦ ?_) hp
    obtain ⟨r, -, he, -⟩ := Nfa.mem_labels_closureOf.mp hl
    exact hc.not_mem_items he
  · rw [heq] at ht
    exact absurd ht List.not_mem_nil

/-- A label holds a character, or it is the complement of all there are.  Transitions lead to every
state, and texts to those that labels with characters lead to.  So texts lead to every state if some
character is listed nowhere. -/
theorem determinize_reaches (h : determinize nfa limit = .ok dfa) :
    (∀ s, ∀ t ∈ dfa.transitionsFrom s,
        (∃ c, c ∈ t.on) ∨ t.on.negated = true ∧ ∀ c, c ∈ t.on.items) ∧
      (∀ s < dfa.size, Relation.ReflTransGen dfa.Joins dfa.start s) ∧
      (∀ s, (∃ w, dfa.steps dfa.start w = some s) ↔
        Relation.ReflTransGen dfa.Passes dfa.start s) ∧
      ∀ c, nfa.Unlisted c →
        (∀ s, ∀ t ∈ dfa.transitionsFrom s, ∃ c, c ∈ t.on) ∧
          ∀ s < dfa.size, ∃ w, dfa.steps dfa.start w = some s := by
  obtain ⟨found, hwired, hsize⟩ := exists_wired h
  have hdfa := hwired.deterministic hsize
  have hlabel : ∀ s, ∀ t ∈ dfa.transitionsFrom s,
      (∃ c, c ∈ t.on) ∨ t.on.negated = true ∧ ∀ c, c ∈ t.on.items := fun s t ht ↦
    CharSet.exists_mem_or_forall_mem_items (hdfa.nonempty s t ht)
  refine ⟨hlabel, fun s hs ↦ joins_start h hs, fun s ↦ hdfa.exists_steps_iff, fun c hc ↦ ?_⟩
  have hmem : ∀ s, ∀ t ∈ dfa.transitionsFrom s, ∃ c, c ∈ t.on := by
    intro s t ht
    refine (hlabel s t ht).resolve_right ?_
    rintro ⟨-, hall⟩
    exact not_mem_items_of_unlisted h hc ht (hall c)
  have hpasses : ∀ i j, dfa.Joins i j → dfa.Passes i j := by
    rintro i j ⟨t, ht, htarget⟩
    exact ⟨t, ht, htarget, hmem i t ht⟩
  exact ⟨hmem, fun s hs ↦
    hdfa.exists_steps_iff.mpr (Relation.ReflTransGen.mono hpasses _ _ (joins_start h hs))⟩

/-- Two complements and a character that neither lists: every state is behind some text. -/
theorem determinize_reaches_complements :
    let nfa : Nfa Nat := ⟨0, #[
      ⟨[⟨some (CharSet.singleton 'a').compl, 1⟩, ⟨some (CharSet.singleton 'b').compl, 2⟩], none⟩,
      ⟨[], some 1⟩, ⟨[⟨none, 0⟩], some 0⟩]⟩
    nfa.Unlisted 'c' ∧ ∃ dfa, determinize nfa none = .ok dfa ∧
      ∀ s < dfa.size, ∃ w, dfa.steps dfa.start w = some s := by
  intro nfa
  have hc : nfa.Unlisted 'c' := by
    unfold Nfa.Unlisted
    decide
  obtain ⟨dfa, h⟩ := exists_determinize nfa
  obtain ⟨-, -, -, hunlisted⟩ := determinize_reaches h
  exact ⟨hc, dfa, h, (hunlisted 'c' hc).2⟩

/-- A complement gets its transition, whatever it leaves out. -/
theorem determinize_addRegex_set {s : CharSet} (hs : s.negated = true) :
    determinize ((Nfa.initial : Nfa Nat).addRegex (.set s) 0).1 none =
      .ok ⟨0, #[⟨[⟨s, 1⟩], none⟩, ⟨[], some 0⟩]⟩ := by
  obtain ⟨items, negated, hascending⟩ := s
  cases hs
  cbv

/-- The class that leaves out everything from the first character to the last has no members, but
its state is made all the same, and no text leads there. -/
theorem determinize_makes_unreached_state :
    ∃ (r : Regex) (dfa : Dfa Nat),
      Pattern.parse (String.ofList ['[', '^', Char.ofNat 0, '-', Char.ofNat 0x10FFFF, ']']) =
          .ok r ∧
        (Nfa.initial.addRegex r 0).1.InRange ∧
        determinize (Nfa.initial.addRegex r 0).1 none = .ok dfa ∧
        (∃ t ∈ dfa.transitionsFrom dfa.start, ∀ c, c ∉ t.on) ∧
        ∃ s < dfa.size, ∀ w, dfa.steps dfa.start w ≠ some s := by
  let all := CharSet.empty ∪ CharSet.range (Char.ofNat 0) (Char.ofNat 0x10FFFF)
  let nothing := all.compl
  have hnothing : ∀ c, c ∉ nothing := fun c hc ↦
    CharSet.mem_compl.mp hc (CharSet.mem_union.mpr (.inr (CharSet.mem_range_last (Nat.zero_le _))))
  have hnegated : nothing.negated = true := by
    change (!all.negated) = true
    rw [CharSet.negated_union, CharSet.negated_range]
    rfl
  refine ⟨.set nothing, _, ?_, (Nfa.rooted_initial.addRegex _ 0).toInRange,
    determinize_addRegex_set hnegated, ?_, 1, Nat.lt_succ_self 1, ?_⟩
  · rw [Pattern.parse, Pattern.lex, String.toList_ofList]
    rfl
  · exact ⟨_, List.mem_cons_self, hnothing⟩
  · rintro (_ | ⟨c, w⟩) hw
    · cases hw
    · have hnone : nothing.contains c = false := Bool.not_eq_true _ ▸ hnothing c
      simp [steps, step, transitionsFrom, hnone] at hw

end

end Dfa

end RegexScan
