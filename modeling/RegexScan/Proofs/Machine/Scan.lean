import Mathlib.Data.List.Basic
import RegexScan.Machine.Scan

/-!
# What a scan hands out

Actions only decide where a scan stops, so its matches and its end can be described without any.
An attempt follows the automaton as far as it goes, which finds the longest accepted prefix of the
characters in front.
-/

namespace RegexScan

namespace Dfa

variable {α : Type}

/-- What an automaton accepts a text with. -/
def verdict (dfa : Dfa α) (w : List Char) : Option α :=
  (dfa.steps dfa.start w).bind dfa.accepting?

theorem steps_append (dfa : Dfa α) (s : Nat) (v w : List Char) :
    dfa.steps s (v ++ w) = (dfa.steps s v).bind fun t ↦ dfa.steps t w := by
  induction v generalizing s with
  | nil => rfl
  | cons c v ih =>
    rw [List.cons_append, steps, steps]
    cases dfa.step s c with
    | none => rfl
    | some t => exact ih t

theorem verdict_eq_none_of_append {dfa : Dfa α} {v : List Char}
    (h : dfa.steps dfa.start v = none) (w : List Char) : dfa.verdict (v ++ w) = none := by
  rw [verdict, steps_append, h]
  rfl

end Dfa

namespace Scan

/-! ## The longest accepted prefix -/

section

variable {ε : Type} {dfa : Dfa Nat} {v w : List Char} {longest : Option (Nat × Nat)}

/-- The longest accepted prefix of a text, by its length and the pattern that accepts it. -/
def IsLongest (dfa : Dfa Nat) (w : List Char) : Option (Nat × Nat) → Prop
  | none => ∀ n ≤ w.length, dfa.verdict (w.take n) = none
  | some (n, pattern) =>
    n ≤ w.length ∧ dfa.verdict (w.take n) = some pattern ∧
      ∀ k, n < k → k ≤ w.length → dfa.verdict (w.take k) = none

theorem isLongest_nil (dfa : Dfa Nat) :
    IsLongest dfa [] ((dfa.accepting? dfa.start).map (0, ·)) := by
  have hverdict : dfa.verdict [] = dfa.accepting? dfa.start := rfl
  cases haccepting : dfa.accepting? dfa.start with
  | none =>
    intro n _
    rw [List.take_nil, hverdict, haccepting]
  | some pattern =>
    refine ⟨Nat.le_refl _, ?_, fun k hk hle ↦ absurd (Nat.lt_of_lt_of_le hk hle) (Nat.lt_irrefl _)⟩
    rw [List.take_nil, hverdict, haccepting]

theorem IsLongest.length_le {found : Nat × Nat} (h : IsLongest dfa w longest)
    (hfound : longest = some found) : found.1 ≤ w.length := by
  subst hfound
  exact h.1

/-- Nothing that is accepted is longer. -/
theorem IsLongest.exists_le {n pattern : Nat} (h : IsLongest dfa w longest) (hn : n ≤ w.length)
    (hverdict : dfa.verdict (w.take n) = some pattern) :
    ∃ found, longest = some found ∧ n ≤ found.1 := by
  cases longest with
  | none =>
    rw [h n hn] at hverdict
    cases hverdict
  | some found =>
    obtain ⟨-, -, hlonger⟩ := h
    refine ⟨found, rfl, ?_⟩
    by_contra hlt
    rw [hlonger n (Nat.lt_of_not_le hlt) hn] at hverdict
    cases hverdict

/-- There is only one longest accepted prefix. -/
theorem IsLongest.unique {longest' : Option (Nat × Nat)} (h : IsLongest dfa w longest)
    (h' : IsLongest dfa w longest') : longest = longest' := by
  have hsome : ∀ {a b : Option (Nat × Nat)}, IsLongest dfa w a → IsLongest dfa w b →
      ∀ found, a = some found → b = some found := by
    rintro a b ha hb ⟨n, pattern⟩ rfl
    obtain ⟨hn, hverdict, -⟩ := id ha
    obtain ⟨⟨n', pattern'⟩, rfl, hle⟩ := hb.exists_le hn hverdict
    obtain ⟨hn', hverdict', -⟩ := hb
    obtain ⟨_, heq, hle'⟩ := ha.exists_le hn' hverdict'
    cases heq
    obtain rfl : n = n' := Nat.le_antisymm hle hle'
    rw [Option.some.inj (hverdict.symm.trans hverdict')]
  exact Option.ext fun found ↦ ⟨hsome h h' found, hsome h' h found⟩

/-- More characters do not matter as long as nothing longer is accepted. -/
theorem IsLongest.append (h : IsLongest dfa v longest)
    (hnone : ∀ n, v.length < n → dfa.verdict ((v ++ w).take n) = none) :
    IsLongest dfa (v ++ w) longest := by
  have hshort : ∀ n ≤ v.length, (v ++ w).take n = v.take n := fun n ↦ List.take_append_of_le_length
  cases longest with
  | none =>
    intro n _
    rcases Nat.lt_or_ge v.length n with hn | hn
    · exact hnone n hn
    · rw [hshort n hn]
      exact h n hn
  | some found =>
    obtain ⟨n, pattern⟩ := found
    obtain ⟨hn, hverdict, hlonger⟩ := h
    refine ⟨?_, ?_, ?_⟩
    · rw [List.length_append]
      exact Nat.le_add_right_of_le hn
    · rw [hshort n hn, hverdict]
    · intro k hk _
      rcases Nat.lt_or_ge v.length k with hkv | hkv
      · exact hnone k hkv
      · rw [hshort k hkv]
        exact hlonger k hk hkv

/-- A text that is accepted is its own longest prefix. -/
theorem IsLongest.of_verdict {pattern : Nat} (h : dfa.verdict w = some pattern) :
    IsLongest dfa w (some (w.length, pattern)) := by
  refine ⟨Nat.le_refl _, ?_, fun k hk hle ↦ absurd (Nat.lt_of_lt_of_le hk hle) (Nat.lt_irrefl _)⟩
  rw [List.take_length, h]

/-- Behind a character that leads nowhere nothing longer is accepted. -/
theorem IsLongest.dead {c : Char} (h : IsLongest dfa v longest)
    (hdead : dfa.steps dfa.start (v ++ [c]) = none) (w : List Char) :
    IsLongest dfa (v ++ c :: w) longest := by
  apply h.append
  intro n hn
  have hlength : (v ++ [c]).length ≤ n := by
    rw [List.length_append, List.length_singleton]
    exact hn
  rw [List.append_cons, List.take_append, List.take_of_length_le hlength]
  exact Dfa.verdict_eq_none_of_append hdead _

/-- The characters in front of a source, up to an end of the input or a failure. -/
def front : List (Poll ε) → List Char
  | .char c :: input => c :: front input
  | _ => []

/-- Following the automaton through a source keeps the longest accepted prefix. -/
theorem isLongest_follow {s : Nat} (input : List (Poll ε))
    (hs : dfa.steps dfa.start v = some s) (h : IsLongest dfa v longest) :
    IsLongest dfa (v ++ front input) (follow dfa s v.length longest input).longest := by
  induction input generalizing s v longest with
  | nil =>
    rw [front, follow, List.append_nil]
    · exact h
    · nofun
  | cons poll input ih =>
    cases poll with
    | endOfInput =>
      rw [front, follow, List.append_nil]
      · exact h
      · nofun
    | failure e =>
      rw [front, follow, List.append_nil]
      · exact h
      · nofun
    | char c =>
      have hsteps : dfa.steps dfa.start (v ++ [c]) = dfa.step s c := by
        rw [Dfa.steps_append, hs, Option.bind_some, Dfa.steps]
        cases dfa.step s c <;> rfl
      rw [front, follow]
      cases hstep : dfa.step s c with
      | none => exact h.dead (hsteps.trans hstep) _
      | some next =>
        have hnext := hsteps.trans hstep
        have hverdict : dfa.verdict (v ++ [c]) = dfa.accepting? next := by
          rw [Dfa.verdict, hnext, Option.bind_some]
        have hlength : v.length + 1 = (v ++ [c]).length := by
          rw [List.length_append, List.length_singleton]
        rw [List.append_cons, hlength]
        apply ih hnext
        cases haccepting : dfa.accepting? next with
        | some pattern => exact .of_verdict (hverdict.trans haccepting)
        | none =>
          apply h.append
          intro n hn
          rw [List.take_of_length_le (hlength ▸ hn), hverdict, haccepting]

/-- An attempt finds the longest accepted prefix of what the source gives. -/
theorem isLongest_attempt (dfa : Dfa Nat) (input : List (Poll ε)) :
    IsLongest dfa (front input) (attempt dfa input).longest :=
  isLongest_follow input rfl (isLongest_nil dfa)

end

/-! ## Scans without actions -/

section

variable {ε : Type}

/-- The matches that a scan finds if nothing stops it, and how it ends. -/
structure Outcome (ε : Type) where
  found : List Match
  result : Except ε Unit

/-- The outcome with a match in front, if there is one. -/
def Outcome.after (later : Outcome ε) (first : Option Match) : Outcome ε :=
  ⟨first.toList ++ later.found, later.result⟩

/-- What a scan hands out and how it ends. -/
def outcome (dfa : Dfa Nat) (offset : Nat) (input : List (Poll ε)) : Outcome ε :=
  match input with
  | [] => ⟨[], .ok ()⟩
  | .endOfInput :: _ => ⟨[], .ok ()⟩
  | .failure e :: _ => ⟨[], .error e⟩
  | .char c :: rest =>
    let a := attempt dfa (.char c :: rest)
    let later : Outcome ε := match a.halt with
      | .failed e => ⟨[], .error e⟩
      | _ => outcome dfa (offset + a.advance) (a.remaining (.char c :: rest))
    ⟨(a.found? offset (.char c :: rest)).toList ++ later.found, later.result⟩
termination_by input.length
decreasing_by exact Attempt.length_remaining_lt ..

/-- Hand matches out one after the other until an action answers true. -/
def feed {m : Type → Type} [Monad m] (onMatch : Match → m Bool) (result : Except ε Unit) :
    List Match → m (Except ε Unit)
  | [] => pure result
  | found :: later => do
    if ← onMatch found then pure (.ok ()) else feed onMatch result later

/-- A scan hands out its matches in order, and the actions decide no more than where it stops. -/
theorem run_eq_feed {m : Type → Type} [Monad m] [LawfulMonad m] (dfa : Dfa Nat)
    (onMatch : Match → m Bool) (offset : Nat) (input : List (Poll ε)) :
    run dfa onMatch offset input =
      feed onMatch (outcome dfa offset input).result (outcome dfa offset input).found := by
  induction offset, input using outcome.induct dfa with
  | case1 offset => rw [run, outcome, feed]
  | case2 offset rest => rw [run, outcome, feed]
  | case3 offset e rest => rw [run, outcome, feed]
  | case4 offset c rest a ih =>
    subst a
    rw [run, outcome]
    generalize attempt dfa (.char c :: rest) = a at ih ⊢
    cases a.found? offset (.char c :: rest) with
    | none =>
      simp only [pure_bind]
      cases a.halt with
      | failed e => rfl
      | stuck => exact ih
      | ended consumed => exact ih
    | some found =>
      apply bind_congr
      intro stop
      cases stop with
      | true => rfl
      | false =>
        cases a.halt with
        | failed e => rfl
        | stuck => exact ih
        | ended consumed => exact ih

end

end Scan

end RegexScan
