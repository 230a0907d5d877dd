import RegexScan.Proofs.FirstOccurrences
import RegexScan.Proofs.Machine.HandOut
import RegexScan.Proofs.Machine.Joined

/-!
# From adding a rule to running its action

A rule set keeps each pattern where it was first added and the action that was added last.  The
index of a rule then goes through the automatons, comes back as the index of a match, and selects
the rule again.
-/

namespace RegexScan

namespace RuleSet

variable {m : Type → Type}

/-! ## Calls -/

/-- What a rule set is made by. -/
inductive Call (m : Type → Type) where
  | insert (pattern : String) (action : Action m)
  | withMaxStates (limit : Nat)

namespace Call

/-- What a call does to a rule set. -/
def apply (rules : RuleSet m) : Call m → RuleSet m
  | .insert pattern action => rules.insert pattern action
  | .withMaxStates limit => rules.withMaxStates limit

def rule? : Call m → Option (Rule m)
  | .insert pattern action => some ⟨pattern, action⟩
  | .withMaxStates _ => none

end Call

/-- The rule set that some calls make, one after the other. -/
def ofCalls (calls : List (Call m)) : RuleSet m := calls.foldl Call.apply empty

/-- The rules that calls add, one for each time that one is added. -/
def added (calls : List (Call m)) : List (Rule m) := calls.filterMap Call.rule?

/-- The rule that was added last for a pattern. -/
def last? (added : List (Rule m)) (pattern : String) : Option (Rule m) :=
  added.reverse.find? (·.pattern = pattern)

section

variable {rules added : List (Rule m)} {rule : Rule m}

/-- The rule that is added last is the one that counts for its pattern. -/
theorem last?_concat (added : List (Rule m)) (rule : Rule m) (pattern : String) :
    last? (added ++ [rule]) pattern =
      if rule.pattern = pattern then some rule else last? added pattern := by
  rw [last?, List.reverse_concat, List.find?_cons]
  by_cases h : rule.pattern = pattern
  · rw [if_pos h, decide_eq_true h]
  · rw [if_neg h, decide_eq_false h]
    rfl

/-! ## One place for each pattern -/

/-- A pattern that is there stays in its place, and another one comes behind all of them. -/
theorem patterns_put (rule : Rule m) (rules : List (Rule m)) :
    rule.pattern ∈ rules.map (·.pattern) ∧
        (put rule rules).map (·.pattern) = rules.map (·.pattern) ∨
      rule.pattern ∉ rules.map (·.pattern) ∧
        (put rule rules).map (·.pattern) = rules.map (·.pattern) ++ [rule.pattern] := by
  induction rules with
  | nil => exact .inr ⟨List.not_mem_nil, rfl⟩
  | cons r rs ih =>
    rw [put, List.map_cons, List.mem_cons]
    split
    · next h =>
      refine .inl ⟨.inl h.symm, ?_⟩
      rw [List.map_cons, h]
    · next h =>
      rw [List.map_cons]
      rcases ih with ⟨hmem, heq⟩ | ⟨hnew, heq⟩
      · exact .inl ⟨.inr hmem, congrArg _ heq⟩
      · exact .inr ⟨not_or_intro (fun heq ↦ h heq.symm) hnew, congrArg _ heq⟩

/-- The rule that is put takes the place of the one with its pattern, and of no other. -/
theorem mem_put (hnodup : (rules.map (·.pattern)).Nodup) {r : Rule m} (h : r ∈ put rule rules) :
    r = rule ∨ r ∈ rules ∧ rule.pattern ≠ r.pattern := by
  induction rules with
  | nil => exact .inl (List.mem_singleton.mp h)
  | cons r' rs ih =>
    obtain ⟨hother, hnodup⟩ := List.nodup_cons.mp hnodup
    rw [put] at h
    split at h
    · next heq =>
      refine (List.mem_cons.mp h).imp_right fun hr ↦ ⟨.tail _ hr, fun hpattern ↦ hother ?_⟩
      exact List.mem_map.mpr ⟨r, hr, (heq.trans hpattern).symm⟩
    · next hne =>
      rcases List.mem_cons.mp h with rfl | hr
      · exact .inr ⟨List.mem_cons_self, fun heq ↦ hne heq.symm⟩
      · exact (ih hnodup hr).imp_right fun ⟨hr, hne⟩ ↦ ⟨.tail _ hr, hne⟩

/-- The rules that are kept of those that were added: each pattern stands where it was first added,
and has the rule that was added last. -/
structure Keeps (rules added : List (Rule m)) : Prop where
  patterns_eq : rules.map (·.pattern) = (added.map (·.pattern)).eraseDups
  nodup : (rules.map (·.pattern)).Nodup
  last?_eq : ∀ rule ∈ rules, last? added rule.pattern = some rule

theorem keeps_nil : Keeps ([] : List (Rule m)) [] :=
  ⟨rfl, .nil, fun _ hrule ↦ absurd hrule List.not_mem_nil⟩

/-- Putting a rule keeps it in its place or at the end. -/
theorem Keeps.put (h : Keeps rules added) (rule : Rule m) :
    Keeps (put rule rules) (added ++ [rule]) := by
  have hmem_iff : rule.pattern ∈ added.map (·.pattern) ↔ rule.pattern ∈ rules.map (·.pattern) := by
    rw [h.patterns_eq, List.mem_eraseDups]
  constructor
  · rw [List.map_append, List.map_singleton]
    rcases patterns_put rule rules with ⟨hmem, heq⟩ | ⟨hnew, heq⟩
    · rw [heq, eraseDups_concat_of_mem (hmem_iff.mpr hmem), h.patterns_eq]
    · rw [heq, eraseDups_concat_of_not_mem (mt hmem_iff.mp hnew), h.patterns_eq]
  · rcases patterns_put rule rules with ⟨-, heq⟩ | ⟨hnew, heq⟩
    · exact heq ▸ h.nodup
    · rw [heq, ← List.concat_eq_append]
      exact h.nodup.concat hnew
  · intro r hr
    rw [last?_concat]
    rcases mem_put h.nodup hr with rfl | ⟨hr, hne⟩
    · exact if_pos rfl
    · rw [if_neg hne]
      exact h.last?_eq r hr

end

theorem keeps_ofCalls (calls : List (Call m)) : Keeps (ofCalls calls).rules (added calls) := by
  induction calls using List.reverseRecOn with
  | nil => exact keeps_nil
  | append_singleton calls call ih =>
    rw [ofCalls, List.foldl_concat, added, List.filterMap_append]
    cases call with
    | insert pattern action => exact ih.put ⟨pattern, action⟩
    | withMaxStates limit =>
      rw [List.filterMap_cons_none rfl, List.filterMap_nil, List.append_nil]
      exact ih

end RuleSet

/-! ## The index of a match -/

namespace Scan

variable {ε : Type} {dfa : Dfa Nat} {found : Match}

/-- A source begins with the characters in front. -/
theorem exists_front_append (input : List (Poll ε)) :
    ∃ tail, (front input).map .char ++ tail = input := by
  induction input with
  | nil => exact ⟨[], rfl⟩
  | cons poll input ih =>
    cases poll with
    | char c =>
      obtain ⟨tail, heq⟩ := ih
      exact ⟨tail, congrArg (Poll.char c :: ·) heq⟩
    | endOfInput => exact ⟨_, rfl⟩
    | failure e => exact ⟨_, rfl⟩

/-- The automaton accepts what an attempt finds. -/
theorem verdict_of_found? {offset : Nat} {input : List (Poll ε)}
    (h : (attempt dfa input).found? offset input = some found) :
    dfa.verdict found.text.toList = some found.pattern := by
  have hlongest := isLongest_attempt dfa input
  obtain ⟨tail, hinput⟩ := exists_front_append input
  have hfound := @found?_append _ _ tail (attempt dfa input) offset fun _ ↦ hlongest.length_le
  rw [hinput, h] at hfound
  obtain ⟨longest, hsome, rfl⟩ := Option.map_eq_some_iff.mp hfound.symm
  rw [hsome] at hlongest
  obtain ⟨-, hverdict, -⟩ := hlongest
  rw [String.toList_ofList]
  exact hverdict

/-- The automaton accepts every match of a scan, whatever is scanned. -/
theorem verdict_of_mem_found_outcome {offset : Nat} {input : List (Poll ε)}
    (h : found ∈ (outcome dfa offset input).found) :
    dfa.verdict found.text.toList = some found.pattern := by
  induction offset, input using outcome.induct dfa with
  | case1 offset =>
    rw [outcome] at h
    exact absurd h List.not_mem_nil
  | case2 offset rest =>
    rw [outcome] at h
    exact absurd h List.not_mem_nil
  | case3 offset e rest =>
    rw [outcome] at h
    exact absurd h List.not_mem_nil
  | case4 offset c rest a ih =>
    subst a
    rw [outcome] at h
    rcases List.mem_append.mp h with h | h
    · exact verdict_of_found? (Option.mem_toList.mp h)
    · cases hhalt : (attempt dfa (.char c :: rest)).halt with
      | failed e =>
        rw [hhalt] at h
        exact absurd h List.not_mem_nil
      | stuck =>
        rw [hhalt] at h
        exact ih h
      | ended consumed =>
        rw [hhalt] at h
        exact ih h

end Scan

namespace Machine

variable {m : Type → Type}

/-- A pattern is well formed and matches a text. -/
def Matches (pattern : String) (w : List Char) : Prop :=
  ∃ r, Pattern.parse pattern = .ok r ∧ w ∈ r.language

/-- The rule that a match goes to: it stands at the index of the match, and its pattern is the first
that matches the text. -/
structure GoesTo (rules : RuleSet m) (found : Match) (rule : Rule m) : Prop where
  getElem?_eq : rules.rules[found.pattern]? = some rule
  isLeast : IsLeast {i | ∃ p, rules.patterns[i]? = some p ∧ Matches p found.text.toList}
    found.pattern

/-- Matches in their order, each with the rule that it goes to. -/
structure Handed (rules : RuleSet m) (found : List Match) (handed : List (Match × Rule m)) : Prop
    where
  found_eq : handed.map (·.1) = found
  goesTo : ∀ p ∈ handed, GoesTo rules p.1 p.2

section

variable {rules : RuleSet m} {machine : Machine m}

/-- The trees stand where their patterns do. -/
theorem exists_tree_iff {patterns : List String} {trees : List Regex}
    (htrees : patterns.map Pattern.parse = trees.map .ok) (w : List Char) (i : Nat) :
    (∃ r, trees[i]? = some r ∧ w ∈ r.language) ↔ ∃ p, patterns[i]? = some p ∧ Matches p w := by
  have hi := congrArg (·[i]?) htrees
  simp only [List.getElem?_map] at hi
  constructor
  · rintro ⟨r, hr, hw⟩
    rw [hr] at hi
    obtain ⟨p, hp, hparse⟩ := Option.map_eq_some_iff.mp hi
    exact ⟨p, hp, r, hparse, hw⟩
  · rintro ⟨p, hp, r, hparse, hw⟩
    rw [hp, Option.map_some, hparse] at hi
    obtain ⟨r', hr', heq⟩ := Option.map_eq_some_iff.mp hi.symm
    exact ⟨r', hr', Except.ok.inj heq ▸ hw⟩

theorem exists_goesTo (h : build rules = .ok machine) {found : Match}
    (hverdict : machine.dfa.verdict found.text.toList = some found.pattern) :
    ∃ rule, GoesTo rules found rule := by
  obtain ⟨trees, htrees, hdfa⟩ := build_ok h
  have hleast := (hdfa.verdict_eq_some_iff _ _).mp hverdict
  simp only [exists_tree_iff htrees] at hleast
  obtain ⟨p, hp, -⟩ := hleast.1
  rw [RuleSet.patterns, List.getElem?_map] at hp
  obtain ⟨rule, hrule, -⟩ := Option.map_eq_some_iff.mp hp
  exact ⟨rule, hrule, hleast⟩

end

/-! ## From a match to its action -/

variable [Monad m]

/-- Run the actions of rules, each on its match, until one answers true, and keep the answers. -/
def act : List (Match × Rule m) → m (List (Match × Bool))
  | [] => return []
  | (found, rule) :: later => do
    if ← rule.action found then return [(found, true)]
    return (found, false) :: (← act later)

section

variable {rules : RuleSet m} {machine : Machine m} {all : List Match}

/-- What is looked up by the indices is the rules. -/
theorem handOut_eq_act {handed : List (Match × Rule m)}
    (h : ∀ p ∈ handed, machine.rules[p.1.pattern]? = some p.2) :
    machine.handOut (handed.map (·.1)) = act handed := by
  induction handed with
  | nil => rfl
  | cons p later ih =>
    obtain ⟨found, rule⟩ := p
    have hdispatch : machine.dispatch found = rule.action found := by
      rw [dispatch, h _ List.mem_cons_self]
    rw [handOut, List.map_cons, Scan.handOut, hdispatch, act,
      ← ih fun p hp ↦ h p (.tail _ hp)]
    rfl

/-- Handing out matches that the automaton accepts is running the actions of the rules they go
to. -/
theorem exists_handed (h : build rules = .ok machine)
    (hverdict : ∀ found ∈ all, machine.dfa.verdict found.text.toList = some found.pattern) :
    ∃ handed, Handed rules all handed ∧ machine.handOut all = act handed := by
  choose rule hrule using fun found hfound ↦ exists_goesTo h (hverdict found hfound)
  let handed := all.attach.map fun f ↦ (f.1, rule f.1 f.2)
  have hfound : handed.map (·.1) = all := by
    rw [List.map_map]
    exact List.attach_map_subtype_val all
  have hgoes : ∀ p ∈ handed, GoesTo rules p.1 p.2 := by
    intro p hp
    obtain ⟨f, -, rfl⟩ := List.mem_map.mp hp
    exact hrule f.1 f.2
  refine ⟨handed, ⟨hfound, hgoes⟩, ?_⟩
  rw [← hfound]
  exact handOut_eq_act fun p hp ↦ rules_of_build h ▸ (hgoes p hp).getElem?_eq

variable [LawfulMonad m]

/-- Scanning reads hands out what the scan finds, and then its result. -/
theorem scan_eq_handOut (machine : Machine m) (reads : List Read) :
    let outcome := Scan.outcome machine.dfa 0 (Reader.polls [] reads)
    machine.scan reads =
      (fun answers ↦ if answers.any (·.2) then .ok () else outcome.result.mapError .unreadable) <$>
        machine.handOut outcome.found := by
  intro outcome
  rw [scan_eq_map, Scan.run_eq_feed, Scan.feed_eq_handOut, Functor.map_map]
  refine congrArg (· <$> _) (funext fun answers ↦ ?_)
  split <;> rfl

/-- Each pattern of a rule set stands where it was first added and has the action that was added
last, and a machine that is made of the rules runs for each of its matches the action of the rule at
its index, whose pattern is the first that matches. -/
theorem build_ofCalls_acts (calls : List (RuleSet.Call m)) :
    let rules := RuleSet.ofCalls calls
    rules.patterns = ((RuleSet.added calls).map (·.pattern)).eraseDups ∧
      rules.length = rules.patterns.length ∧
      (∀ rule ∈ rules.rules, RuleSet.last? (RuleSet.added calls) rule.pattern = some rule) ∧
      ∀ machine, build rules = .ok machine →
        machine.patterns = rules.patterns ∧
        (∀ text, ∃ handed, Handed rules (machine.findAll text) handed ∧
          machine.scanText text = (fun _ ↦ ()) <$> act handed) ∧
        ∀ reads,
          let outcome := Scan.outcome machine.dfa 0 (Reader.polls [] reads)
          ∃ handed, Handed rules outcome.found handed ∧
            machine.scan reads =
              (fun answers ↦ if answers.any (·.2) then .ok ()
                else outcome.result.mapError .unreadable) <$> act handed := by
  intro rules
  have hkeeps := RuleSet.keeps_ofCalls calls
  refine ⟨hkeeps.patterns_eq, (List.length_map _).symm, hkeeps.last?_eq, fun machine h ↦
    ⟨patterns_of_build h, fun text ↦ ?_, fun reads ↦ ?_⟩⟩
  · have hverdict : ∀ found ∈ machine.findAll text,
        machine.dfa.verdict found.text.toList = some found.pattern := by
      intro found hfound
      rw [findAll_eq] at hfound
      exact Scan.verdict_of_mem_found_outcome hfound
    obtain ⟨handed, hhanded, hact⟩ := exists_handed h hverdict
    exact ⟨handed, hhanded, hact ▸ scanText_eq machine text⟩
  · obtain ⟨handed, hhanded, hact⟩ :=
      exists_handed h fun _ hfound ↦ Scan.verdict_of_mem_found_outcome hfound
    exact ⟨handed, hhanded, hact ▸ scan_eq_handOut machine reads⟩

end

/-- The action that was added last runs for the pattern that was added first. -/
theorem build_ofCalls_acts_last :
    let log (name : String) : Action (StateM (List String)) := fun found ↦
      (fun _ ↦ false) <$> modify (· ++ [name ++ found.text])
    let calls : List (RuleSet.Call (StateM (List String))) :=
      [.insert "b" (log "first "), .withMaxStates 9, .insert "a" (log "second "),
        .insert "b" (log "third "), .withMaxStates 3]
    (RuleSet.ofCalls calls).patterns = ["b", "a"] ∧
      ∃ machine, build (RuleSet.ofCalls calls) = .ok machine ∧
        (machine.scanText "ab").run [] = ((), ["second a", "third b"]) := by
  intro log calls
  let rules : RuleSet (StateM (List String)) :=
    ⟨[⟨"b", log "third "⟩, ⟨"a", log "second "⟩], some 3⟩
  let onB : Dfa.Transition := ⟨⟨['b'], false, by decide⟩, 1⟩
  let onA : Dfa.Transition := ⟨⟨['a'], false, by decide⟩, 2⟩
  let machine : Machine (StateM (List String)) :=
    ⟨⟨0, #[⟨[onB, onA], none⟩, ⟨[], some 0⟩, ⟨[], some 1⟩]⟩, rules.rules⟩
  have hrules : RuleSet.ofCalls calls = rules := by cbv
  have hbuild : build (RuleSet.ofCalls calls) = .ok machine := by
    rw [hrules]
    cbv
  have hfound : machine.findAll "ab" = [⟨"a", 0, 1⟩, ⟨"b", 1, 0⟩] := by
    rw [findAll_eq]
    cbv
  obtain ⟨hpatterns, -, -, hacts⟩ := build_ofCalls_acts calls
  obtain ⟨-, htext, -⟩ := hacts machine hbuild
  obtain ⟨handed, ⟨hhanded, hgoes⟩, hscan⟩ := htext "ab"
  rw [hfound] at hhanded
  obtain ⟨⟨_, second⟩, later, rfl, rfl, hlater⟩ := List.map_eq_cons_iff.mp hhanded
  obtain ⟨⟨_, third⟩, behind, rfl, rfl, hbehind⟩ := List.map_eq_cons_iff.mp hlater
  obtain rfl := List.map_eq_nil_iff.mp hbehind
  have hsecond := (hgoes _ List.mem_cons_self).getElem?_eq
  have hthird := (hgoes _ (.tail _ List.mem_cons_self)).getElem?_eq
  rw [hrules] at hsecond hthird
  obtain rfl := Option.some.inj hsecond
  obtain rfl := Option.some.inj hthird
  refine ⟨hpatterns.trans (by cbv), machine, hbuild, ?_⟩
  rw [hscan]
  rfl

end Machine

end RegexScan
