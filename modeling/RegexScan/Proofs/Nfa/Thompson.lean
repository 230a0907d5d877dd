import Mathlib.Order.Basic
import RegexScan.Nfa.Thompson
import RegexScan.Proofs.Nfa.Path
import RegexScan.Proofs.Regex.Language

/-!
# The language of a fragment

Adding an expression to an automaton adds exactly the texts that the expression matches.

That they are all accepted is shown by paths through the fragment.  That nothing else is accepted is
shown by labelling: each state gets a language, which no transition out of the state may leave, and
then the label of a state contains every text read on a path from it.  A fragment passes on what is
to follow it: whatever language `K` its exit is to have, its own states can be labelled so that the
entry gets the language of the expression followed by `K`.  A star thus needs no induction over its
rounds, only the laws of a Kleene algebra.
-/

namespace RegexScan.Nfa

open scoped Computability

variable {α : Type}

/-! ## Labelling the states -/

/-- The texts that a transition reads. -/
def Transition.language (t : Transition) : Language Char :=
  match t.on with
  | some s => (Regex.set s).language
  | none => 1

/-- Every state has a language, such that reading along a transition and going on in the language of
its target stays within the language of its source. -/
def Labelling (nfa : Nfa α) (X : Nat → Language Char) : Prop :=
  ∀ s, ∀ t ∈ nfa.transitionsFrom s, t.language * X t.target ≤ X s

namespace Labelling

variable {nfa : Nfa α} {X Y : Nat → Language Char} {s t : Nat} {v w : List Char}

/-- A labelling is carried back along a path. -/
theorem append_mem (hX : nfa.Labelling X) (h : nfa.Path s v t) (hw : w ∈ X t) : v ++ w ∈ X s := by
  induction h with
  | refl => exact hw
  | free hs _ ih =>
    apply hX _ _ hs
    rw [Transition.language, one_mul]
    exact ih hw
  | @char _ t _ k c _ hs hc _ ih =>
    apply hX _ _ hs
    have hone : [c] ∈ Transition.language ⟨some k, t⟩ := Regex.mem_language_set.mpr ⟨c, hc, rfl⟩
    exact Language.mem_mul.mpr ⟨[c], hone, _, ih hw, rfl⟩

/-- Labels beyond the existing states are irrelevant. -/
theorem congr (hr : nfa.InRange) (hX : nfa.Labelling X) (h : ∀ s < nfa.size, Y s = X s) :
    nfa.Labelling Y := by
  intro s t ht
  have hs : s < nfa.size := by
    by_contra hs
    rw [transitionsFrom_of_size_le (Nat.le_of_not_lt hs)] at ht
    exact List.not_mem_nil ht
  rw [h s hs, h _ (hr.target_lt ht)]
  exact hX s t ht

theorem addState (hX : nfa.Labelling X) : nfa.addState.Labelling X := by
  intro s t ht
  rw [transitionsFrom_addState] at ht
  exact hX s t ht

/-- A new transition keeps a labelling when it respects it. -/
theorem addTransition {e : Transition} (hX : nfa.Labelling X) (hs : s < nfa.size)
    (h : e.language * X e.target ≤ X s) : (nfa.addTransition s e).Labelling X := by
  intro r t ht
  rcases (mem_transitionsFrom_addTransition hs).mp ht with ht | ⟨rfl, rfl⟩
  · exact hX r t ht
  · exact h

/-- A free edge keeps a labelling when labels grow along it. -/
theorem addFree (hX : nfa.Labelling X) (hs : s < nfa.size) (h : X t ≤ X s) :
    (nfa.addFree s t).Labelling X :=
  hX.addTransition hs (by rw [Transition.language, one_mul]; exact h)

end Labelling

/-! ## Growing an automaton -/

/-- New states and transitions are added to an automaton. The states below `lo` stay as they are,
and new transitions only lead to states from `lo` on. -/
structure Extends (lo : Nat) (nfa nfa' : Nfa α) : Prop where
  start_eq : nfa'.start = nfa.start
  size_le : nfa.size ≤ nfa'.size
  getElem?_eq : ∀ s < lo, nfa'.states[s]? = nfa.states[s]?
  subset : ∀ s, nfa.transitionsFrom s ⊆ nfa'.transitionsFrom s
  accepting?_eq : ∀ s, nfa'.accepting? s = nfa.accepting? s
  target_mem : ∀ s, ∀ t ∈ nfa'.transitionsFrom s,
    t ∈ nfa.transitionsFrom s ∨ lo ≤ t.target ∧ t.target < nfa'.size

namespace Extends

variable {lo m : Nat} {nfa nfa' nfa'' : Nfa α}

theorem refl (lo : Nat) (nfa : Nfa α) : Extends lo nfa nfa :=
  ⟨rfl, Nat.le_refl _, fun _ _ ↦ rfl, fun _ ↦ List.Subset.refl _, fun _ ↦ rfl,
    fun _ _ ↦ .inl⟩

theorem trans (h : Extends lo nfa nfa') (h' : Extends lo nfa' nfa'') : Extends lo nfa nfa'' where
  start_eq := h'.start_eq.trans h.start_eq
  size_le := Nat.le_trans h.size_le h'.size_le
  getElem?_eq s hs := (h'.getElem?_eq s hs).trans (h.getElem?_eq s hs)
  subset s := List.Subset.trans (h.subset s) (h'.subset s)
  accepting?_eq s := (h'.accepting?_eq s).trans (h.accepting?_eq s)
  target_mem s t ht := by
    rcases h'.target_mem s t ht with ht | ht
    · rcases h.target_mem s t ht with ht | ⟨hlo, hlt⟩
      · exact .inl ht
      · exact .inr ⟨hlo, Nat.lt_of_lt_of_le hlt h'.size_le⟩
    · exact .inr ht

theorem mono (h : Extends m nfa nfa') (hle : lo ≤ m) : Extends lo nfa nfa' where
  __ := h
  getElem?_eq s hs := h.getElem?_eq s (Nat.lt_of_lt_of_le hs hle)
  target_mem s t ht := (h.target_mem s t ht).imp_right fun ⟨hm, hlt⟩ ↦ ⟨Nat.le_trans hle hm, hlt⟩

theorem addState (h : Extends lo nfa nfa') (hlo : lo ≤ nfa'.size) :
    Extends lo nfa nfa'.addState :=
  h.trans
    { start_eq := rfl
      size_le := by rw [size_addState]; exact Nat.le_succ _
      getElem?_eq := fun s hs ↦ getElem?_addState_of_lt (Nat.lt_of_lt_of_le hs hlo)
      subset := fun s ↦ by rw [transitionsFrom_addState]; exact List.Subset.refl _
      accepting?_eq := accepting?_addState nfa'
      target_mem := fun s t ht ↦ .inl (by rwa [transitionsFrom_addState] at ht) }

theorem addTransition {s : Nat} {e : Transition} (h : Extends lo nfa nfa') (hlo : lo ≤ s)
    (hs : s < nfa'.size) (he : lo ≤ e.target) (het : e.target < nfa'.size) :
    Extends lo nfa (nfa'.addTransition s e) :=
  h.trans
    { start_eq := rfl
      size_le := by rw [size_addTransition]
      getElem?_eq := fun r hr ↦ getElem?_addTransition_of_ne e (Nat.lt_of_lt_of_le hr hlo).ne
      subset := transitionsFrom_subset_addTransition nfa' s e
      accepting?_eq := accepting?_addTransition nfa' s e
      target_mem := fun r t ht ↦ by
        rcases (mem_transitionsFrom_addTransition hs).mp ht with ht | ⟨-, rfl⟩
        · exact .inl ht
        · exact .inr ⟨he, by rwa [size_addTransition]⟩ }

theorem addFree {s t : Nat} (h : Extends lo nfa nfa') (hlo : lo ≤ s) (hs : s < nfa'.size)
    (ht : lo ≤ t) (hts : t < nfa'.size) : Extends lo nfa (nfa'.addFree s t) :=
  h.addTransition hlo hs ht hts

/-- An extension of an automaton without dangling indices has none. -/
theorem inRange (h : Extends lo nfa nfa') (hr : nfa.InRange) : nfa'.InRange where
  start_lt := by
    rw [h.start_eq]
    exact Nat.lt_of_lt_of_le hr.start_lt h.size_le
  target_lt ht := by
    rcases h.target_mem _ _ ht with ht | ⟨-, hlt⟩
    · exact Nat.lt_of_lt_of_le (hr.target_lt ht) h.size_le
    · exact hlt

end Extends

/-- The entry and the exit of a fragment lie between two bounds. -/
structure Fragment.Within (f : Fragment) (lo hi : Nat) : Prop where
  le_entry : lo ≤ f.entry
  entry_lt : f.entry < hi
  le_exit : lo ≤ f.exit
  exit_lt : f.exit < hi

theorem Fragment.Within.mono {f : Fragment} {lo lo' hi hi' : Nat} (h : f.Within lo hi)
    (hlo : lo' ≤ lo) (hhi : hi ≤ hi') : f.Within lo' hi' :=
  ⟨Nat.le_trans hlo h.le_entry, Nat.lt_of_lt_of_le h.entry_lt hhi, Nat.le_trans hlo h.le_exit,
    Nat.lt_of_lt_of_le h.exit_lt hhi⟩

/-! ## The steps of the construction -/

/-- Two new states, the ends of an edge or an alternation. -/
def addEnds (nfa : Nfa α) : Nfa α := nfa.addState.addState

/-- Make a fragment a way from the entry to the exit of another one. -/
def addWay (nfa : Nfa α) (f g : Fragment) : Nfa α :=
  (nfa.addFree f.entry g.entry).addFree g.exit f.exit

/-- Let a fragment be repeated, or passed by, on the way from a given entry. -/
def addLoop (nfa : Nfa α) (entry : Nat) (f : Fragment) : Nfa α :=
  nfa.addEnds
    |>.addFree f.exit f.entry |>.addFree f.exit nfa.size
    |>.addFree entry f.entry |>.addFree entry nfa.size
    |>.addFree nfa.size (nfa.size + 1)

@[simp] theorem size_addEnds (nfa : Nfa α) : nfa.addEnds.size = nfa.size + 2 := by simp [addEnds]

@[simp] theorem size_addWay (nfa : Nfa α) (f g : Fragment) : (nfa.addWay f g).size = nfa.size := by
  simp [addWay]

@[simp] theorem size_addLoop (nfa : Nfa α) (entry : Nat) (f : Fragment) :
    (nfa.addLoop entry f).size = nfa.size + 2 := by
  simp [addLoop]

theorem within_addEnds (nfa : Nfa α) :
    Fragment.Within ⟨nfa.size, nfa.size + 1⟩ nfa.size nfa.addEnds.size := by
  rw [size_addEnds]
  constructor <;> simp

theorem addEdge_eq (nfa : Nfa α) (on : Option CharSet) :
    nfa.addEdge on = (nfa.addEnds.addTransition nfa.size ⟨on, nfa.size + 1⟩,
      ⟨nfa.size, nfa.size + 1⟩) := rfl

theorem addFragment_alt (nfa : Nfa α) (rs : List Regex) :
    nfa.addFragment (.alt rs) = (nfa.addEnds.addBranches ⟨nfa.size, nfa.size + 1⟩ rs,
      ⟨nfa.size, nfa.size + 1⟩) := rfl

theorem addFragment_star (nfa : Nfa α) (r : Regex) :
    nfa.addFragment (.star r) =
      ((nfa.addState.addFragment r).1.addLoop nfa.size (nfa.addState.addFragment r).2,
        ⟨nfa.size, (nfa.addState.addFragment r).1.size + 1⟩) := rfl

theorem extend_cons (nfa : Nfa α) (f : Fragment) (r : Regex) (rs : List Regex) :
    nfa.extend f (r :: rs) =
      ((nfa.addFragment r).1.addFree f.exit (nfa.addFragment r).2.entry).extend
        ⟨f.entry, (nfa.addFragment r).2.exit⟩ rs := rfl

theorem addBranches_cons (nfa : Nfa α) (f : Fragment) (r : Regex) (rs : List Regex) :
    nfa.addBranches f (r :: rs) =
      ((nfa.addFragment r).1.addWay f (nfa.addFragment r).2).addBranches f rs := rfl

/-! ## Adding a fragment leaves the rest as it is -/

section

variable {lo : Nat} {nfa nfa' : Nfa α} {f g : Fragment}

theorem Extends.addEnds (h : Extends lo nfa nfa') (hlo : lo ≤ nfa'.size) :
    Extends lo nfa nfa'.addEnds :=
  (h.addState hlo).addState (by rw [size_addState]; exact Nat.le_succ_of_le hlo)

/-- A fragment is continued by another one that was added behind it. -/
theorem Extends.addNext (h : Extends nfa.size nfa nfa') (hf : f.Within lo nfa.size)
    (hg : g.Within nfa.size nfa'.size) :
    Extends lo nfa (nfa'.addFree f.exit g.entry) ∧
      Fragment.Within ⟨f.entry, g.exit⟩ lo (nfa'.addFree f.exit g.entry).size := by
  have hlo : lo ≤ nfa.size := Nat.le_trans hf.le_exit (Nat.le_of_lt hf.exit_lt)
  have hf := hf.mono (Nat.le_refl _) h.size_le
  have hg := hg.mono hlo (Nat.le_refl _)
  refine ⟨(h.mono hlo).addFree hf.le_exit hf.exit_lt hg.le_entry hg.entry_lt, ?_⟩
  rw [size_addFree]
  exact ⟨hf.le_entry, hf.entry_lt, hg.le_exit, hg.exit_lt⟩

/-- A fragment gets another one that was added behind it as a way through. -/
theorem Extends.addWay (h : Extends nfa.size nfa nfa') (hf : f.Within lo nfa.size)
    (hg : g.Within nfa.size nfa'.size) :
    Extends lo nfa (nfa'.addWay f g) ∧ f.Within lo (nfa'.addWay f g).size := by
  have hlo : lo ≤ nfa.size := Nat.le_trans hf.le_exit (Nat.le_of_lt hf.exit_lt)
  have hf := hf.mono (Nat.le_refl _) h.size_le
  have hg := hg.mono hlo (Nat.le_refl _)
  have hentry := (h.mono hlo).addFree hf.le_entry hf.entry_lt hg.le_entry hg.entry_lt
  rw [size_addWay]
  refine ⟨hentry.addFree hg.le_exit ?_ hf.le_exit ?_, hf⟩
  · rw [size_addFree]
    exact hg.exit_lt
  · rw [size_addFree]
    exact hf.exit_lt

/-- The edges of a repetition are an extension. -/
theorem Extends.addLoop {entry : Nat} (h : Extends lo nfa nfa') (hlo : lo ≤ entry)
    (hentry : entry < nfa'.size) (hf : f.Within lo nfa'.size) :
    Extends lo nfa (nfa'.addLoop entry f) := by
  have hsize : lo ≤ nfa'.size := Nat.le_trans hf.le_exit (Nat.le_of_lt hf.exit_lt)
  obtain ⟨hfe, hfe', hfx, hfx'⟩ := hf
  have hlt : ∀ {s}, s < nfa'.size → s < nfa'.size + 2 := fun h ↦ Nat.lt_add_right 2 h
  have h₀ := h.addEnds hsize
  have h₁ := h₀.addFree hfx (by simpa using hlt hfx') hfe (by simpa using hlt hfe')
  have h₂ := h₁.addFree hfx (by simpa using hlt hfx') hsize (by simp)
  have h₃ := h₂.addFree hlo (by simpa using hlt hentry) hfe (by simpa using hlt hfe')
  have h₄ := h₃.addFree hlo (by simpa using hlt hentry) hsize (by simp)
  exact h₄.addFree hsize (by simp) (Nat.le_succ_of_le hsize) (by simp)

end

/-- A single edge extends the automaton, by a fragment of new states. -/
theorem extends_addEdge (nfa : Nfa α) (on : Option CharSet) :
    Extends nfa.size nfa (nfa.addEdge on).1 ∧
      (nfa.addEdge on).2.Within nfa.size (nfa.addEdge on).1.size := by
  have grown : Extends nfa.size nfa nfa.addEnds := (Extends.refl _ nfa).addEnds (Nat.le_refl _)
  rw [addEdge_eq]
  refine ⟨grown.addTransition (Nat.le_refl _) (by simp) (Nat.le_succ _) (by simp), ?_⟩
  rw [size_addTransition]
  exact within_addEnds nfa

mutual

/-- Every expression extends the automaton, by a fragment of new states. -/
theorem extends_addFragment (nfa : Nfa α) (r : Regex) :
    Extends nfa.size nfa (nfa.addFragment r).1 ∧
      (nfa.addFragment r).2.Within nfa.size (nfa.addFragment r).1.size := by
  match r with
  | .seq [] => exact extends_addEdge nfa none
  | .seq (r :: rs) =>
    obtain ⟨hext, hf⟩ := extends_addFragment nfa r
    obtain ⟨hext', hg, -⟩ := extends_extend (nfa.addFragment r).1 rs hf
    exact ⟨hext.trans hext', hg⟩
  | .alt rs =>
    have hf := within_addEnds nfa
    have hext := extends_addBranches nfa.addEnds rs hf
    rw [addFragment_alt]
    exact ⟨((Extends.refl _ nfa).addEnds (Nat.le_refl _)).trans hext,
      hf.mono (Nat.le_refl _) hext.size_le⟩
  | .star r =>
    obtain ⟨hext, hf⟩ := extends_addFragment nfa.addState r
    rw [size_addState] at hext hf
    have hle := hext.size_le
    rw [size_addState] at hle
    have grown : Extends nfa.size nfa (nfa.addState.addFragment r).1 :=
      ((Extends.refl _ nfa).addState (Nat.le_refl _)).trans (hext.mono (Nat.le_succ _))
    rw [addFragment_star]
    refine ⟨grown.addLoop (Nat.le_refl _) hle (hf.mono (Nat.le_succ _) (Nat.le_refl _)), ?_⟩
    rw [size_addLoop]
    constructor <;> dsimp only <;> omega
  | .set s => exact extends_addEdge nfa (some s)
  | .empty => exact extends_addEdge nfa none

/-- A sequence of expressions extends the automaton and keeps the entry of the fragment
that it continues. -/
theorem extends_extend {lo : Nat} {f : Fragment} (nfa : Nfa α) (rs : List Regex)
    (hf : f.Within lo nfa.size) :
    Extends lo nfa (nfa.extend f rs).1 ∧
      (nfa.extend f rs).2.Within lo (nfa.extend f rs).1.size ∧
      (nfa.extend f rs).2.entry = f.entry := by
  match rs with
  | [] => exact ⟨.refl lo nfa, hf, rfl⟩
  | r :: rs =>
    obtain ⟨hext, hg⟩ := extends_addFragment nfa r
    obtain ⟨hnext, hf⟩ := hext.addNext hf hg
    obtain ⟨hext', hg', hentry⟩ := extends_extend _ rs hf
    rw [extend_cons]
    exact ⟨hnext.trans hext', hg', hentry⟩

/-- The branches of an alternative extend the automaton. -/
theorem extends_addBranches {lo : Nat} {f : Fragment} (nfa : Nfa α) (rs : List Regex)
    (hf : f.Within lo nfa.size) : Extends lo nfa (nfa.addBranches f rs) := by
  match rs with
  | [] => exact .refl lo nfa
  | r :: rs =>
    obtain ⟨hext, hg⟩ := extends_addFragment nfa r
    obtain ⟨hway, hf⟩ := hext.addWay hf hg
    rw [addBranches_cons]
    exact hway.trans (extends_addBranches _ rs hf)

end

/-! ## Every text of the expression leads through its fragment -/

theorem path_addFree {nfa : Nfa α} {s t : Nat} (h : s < nfa.size) : (nfa.addFree s t).Path s [] t :=
  .free ((mem_transitionsFrom_addTransition h).mpr (.inr ⟨rfl, rfl⟩)) (.refl t)

theorem Path.addFree {nfa : Nfa α} {r t : Nat} {w : List Char} (s s' : Nat) (h : nfa.Path r w t) :
    (nfa.addFree s s').Path r w t :=
  h.mono (transitionsFrom_subset_addTransition nfa s ⟨none, s'⟩)

/-- The fragment of an edge has a path for each word of its label. -/
theorem path_addEdge {nfa : Nfa α} {on : Option CharSet} {w : List Char}
    (hw : w ∈ Transition.language ⟨on, nfa.size + 1⟩) :
    (nfa.addEdge on).1.Path (nfa.addEdge on).2.entry w (nfa.addEdge on).2.exit := by
  have hlt : nfa.size < nfa.addEnds.size := by
    rw [size_addEnds]
    exact Nat.lt_add_of_pos_right Nat.zero_lt_two
  have hmem : ⟨on, nfa.size + 1⟩ ∈ (nfa.addEdge on).1.transitionsFrom nfa.size :=
    (mem_transitionsFrom_addTransition hlt).mpr (.inr ⟨rfl, rfl⟩)
  cases on with
  | none =>
    obtain rfl : w = [] := hw
    exact .free hmem (.refl _)
  | some k =>
    obtain ⟨c, hc, rfl⟩ := Regex.mem_language_set.mp hw
    exact .single hmem hc

/-- The ways that a loop opens: into its body, again into its body, and past it. -/
theorem path_addLoop {nfa : Nfa α} {entry : Nat} {f : Fragment} (hentry : entry < nfa.size)
    (hexit : f.exit < nfa.size) :
    (nfa.addLoop entry f).Path entry [] f.entry ∧
      (nfa.addLoop entry f).Path entry [] (nfa.size + 1) ∧
      (nfa.addLoop entry f).Path f.exit [] f.entry ∧
      (nfa.addLoop entry f).Path f.exit [] (nfa.size + 1) := by
  have hbypass : (nfa.addLoop entry f).Path nfa.size [] (nfa.size + 1) := path_addFree (by simp)
  have hentry := Nat.lt_add_right 2 hentry
  have hexit := Nat.lt_add_right 2 hexit
  refine ⟨?_, ?_, ?_, ?_⟩
  · exact (path_addFree (by simpa)).addFree _ _ |>.addFree _ _
  · exact ((path_addFree (by simpa)).addFree _ _).trans hbypass
  · exact (path_addFree (by simpa)).addFree _ _ |>.addFree _ _ |>.addFree _ _ |>.addFree _ _
  · exact ((path_addFree (by simpa)).addFree _ _ |>.addFree _ _ |>.addFree _ _).trans hbypass

/-- A path survives the edges of a repetition. -/
theorem Path.addLoop {nfa : Nfa α} {s t : Nat} {w : List Char} (entry : Nat) (f : Fragment)
    (h : nfa.Path s w t) : (nfa.addLoop entry f).Path s w t := by
  have hends : nfa.addEnds.Path s w t := h.mono fun r ↦ by simp [addEnds]
  exact hends.addFree _ _ |>.addFree _ _ |>.addFree _ _ |>.addFree _ _ |>.addFree _ _

/-- A loop lets every number of rounds through. -/
theorem path_addLoop_of_mem_kstar {nfa : Nfa α} {entry : Nat} {f : Fragment} {L : Language Char}
    {w : List Char} (hentry : entry < nfa.size) (hexit : f.exit < nfa.size)
    (round : ∀ u ∈ L, nfa.Path f.entry u f.exit) (hw : w ∈ L∗) :
    (nfa.addLoop entry f).Path entry w (nfa.size + 1) := by
  obtain ⟨enter, skip, again, leave⟩ := path_addLoop hentry hexit
  -- what can be read from the exit of the body on, which is closed under rounds
  let rest : Language Char := {v | (nfa.addLoop entry f).Path f.exit v (nfa.size + 1)}
  have more : L * rest ≤ rest := by
    rintro _ ⟨u, hu, v, hv, rfl⟩
    exact again.trans (((round u hu).addLoop entry f).trans hv)
  have done : 1 ≤ rest := by
    rintro _ rfl
    exact leave
  have closed : L∗ ≤ rest := by
    rw [← mul_one L∗]
    exact kstar_mul_le done more
  rw [← Language.one_add_self_mul_kstar_eq_kstar, Language.mem_add] at hw
  rcases hw with rfl | ⟨u, hu, v, hv, rfl⟩
  · exact skip
  · exact enter.trans (((round u hu).addLoop entry f).trans (closed hv))

/-- A path through a branch is one through the alternative. -/
theorem path_addWay {nfa : Nfa α} {f g : Fragment} {w : List Char} (hf : f.entry < nfa.size)
    (hg : g.exit < nfa.size) (h : nfa.Path g.entry w g.exit) :
    (nfa.addWay f g).Path f.entry w f.exit := by
  have enter : (nfa.addWay f g).Path f.entry [] g.entry := (path_addFree hf).addFree _ _
  have leave : (nfa.addWay f g).Path g.exit [] f.exit := path_addFree (by rwa [size_addFree])
  have inside : (nfa.addWay f g).Path g.entry w g.exit := (h.addFree _ _).addFree _ _
  have := enter.trans (inside.trans leave)
  rwa [List.nil_append, List.append_nil] at this

mutual

/-- The fragment of an expression has a path for each word of its language. -/
theorem path_addFragment {w : List Char} (nfa : Nfa α) (r : Regex) (hw : w ∈ r.language) :
    (nfa.addFragment r).1.Path (nfa.addFragment r).2.entry w (nfa.addFragment r).2.exit := by
  match r with
  | .seq [] => exact path_addEdge hw
  | .seq (r :: rs) =>
    obtain ⟨u, hu, v, hv, rfl⟩ := Language.mem_mul.mp hw
    have hf := (extends_addFragment nfa r).2
    obtain ⟨hext, -, hentry⟩ := extends_extend (nfa.addFragment r).1 rs hf
    have hfirst := (path_addFragment nfa r hu).mono hext.subset
    rw [← hentry] at hfirst
    exact hfirst.trans (path_extend (nfa.addFragment r).1 rs hf hv)
  | .alt rs => exact path_addBranches nfa.addEnds rs (within_addEnds nfa) hw
  | .star r =>
    obtain ⟨hext, hf⟩ := extends_addFragment nfa.addState r
    have hentry := hext.size_le
    rw [size_addState] at hentry
    exact path_addLoop_of_mem_kstar hentry hf.exit_lt
      (fun u hu ↦ path_addFragment nfa.addState r hu) hw
  | .set s => exact path_addEdge hw
  | .empty => exact path_addEdge hw

/-- A fragment continued by a sequence has a path for each word of the sequence. -/
theorem path_extend {lo : Nat} {f : Fragment} {w : List Char} (nfa : Nfa α) (rs : List Regex)
    (hf : f.Within lo nfa.size) (hw : w ∈ Regex.languageOfSeq rs) :
    (nfa.extend f rs).1.Path f.exit w (nfa.extend f rs).2.exit := by
  match rs with
  | [] =>
    obtain rfl : w = [] := hw
    exact .refl _
  | r :: rs =>
    obtain ⟨u, hu, v, hv, rfl⟩ := Language.mem_mul.mp hw
    obtain ⟨hext, hg⟩ := extends_addFragment nfa r
    obtain ⟨-, hnext⟩ := hext.addNext hf hg
    have hrest := (extends_extend _ rs hnext).1.subset
    rw [extend_cons]
    have hlink := (path_addFree (t := (nfa.addFragment r).2.entry)
      (Nat.lt_of_lt_of_le hf.exit_lt hext.size_le)).mono hrest
    have hfirst := ((path_addFragment nfa r hu).addFree _ _).mono hrest
    exact hlink.trans (hfirst.trans (path_extend _ rs hnext hv))

/-- An alternative has a path for each word of one of its branches. -/
theorem path_addBranches {lo : Nat} {f : Fragment} {w : List Char} (nfa : Nfa α) (rs : List Regex)
    (hf : f.Within lo nfa.size) (hw : w ∈ Regex.languageOfAlt rs) :
    (nfa.addBranches f rs).Path f.entry w f.exit := by
  match rs with
  | [] => exact absurd hw (Language.notMem_zero w)
  | r :: rs =>
    obtain ⟨hext, hg⟩ := extends_addFragment nfa r
    obtain ⟨-, hway⟩ := hext.addWay hf hg
    rw [addBranches_cons]
    rcases (Language.mem_add _ _ _).mp hw with hw | hw
    · have hfirst := path_addWay (Nat.lt_of_lt_of_le hf.entry_lt hext.size_le) hg.exit_lt
        (path_addFragment nfa r hw)
      exact hfirst.mono (extends_addBranches _ rs hway).subset
    · exact path_addBranches _ rs hway hw

end

/-! ## Nothing else leads through it -/

namespace Labelling

variable {nfa : Nfa α} {X : Nat → Language Char} {A B K : Language Char}

/-- A labelling extends to a new state, with any label. -/
theorem exists_addState (hr : nfa.InRange) (hX : nfa.Labelling X) (A : Language Char) :
    ∃ Y, nfa.addState.Labelling Y ∧ (∀ s < nfa.size, Y s = X s) ∧ Y nfa.size = A := by
  refine ⟨Function.update X nfa.size A, ?_, ?_, Function.update_self ..⟩
  · exact (hX.congr hr fun s hs ↦ Function.update_of_ne (Nat.ne_of_lt hs) ..).addState
  · exact fun s hs ↦ Function.update_of_ne (Nat.ne_of_lt hs) ..

/-- A labelling extends to two new states, with any labels. -/
theorem exists_addEnds (hr : nfa.InRange) (hX : nfa.Labelling X) (A B : Language Char) :
    ∃ Y, nfa.addEnds.Labelling Y ∧ (∀ s < nfa.size, Y s = X s) ∧ Y nfa.size = A ∧
      Y (nfa.size + 1) = B := by
  obtain ⟨Y, hY, hYX, hA⟩ := hX.exists_addState hr A
  have hr' := ((Extends.refl _ nfa).addState (Nat.le_refl _)).inRange hr
  obtain ⟨Z, hZ, hZY, hB⟩ := hY.exists_addState hr' B
  rw [size_addState] at hZY hB
  refine ⟨Z, hZ, ?_, ?_, hB⟩
  · intro s hs
    rw [hZY s (Nat.lt_succ_of_lt hs), hYX s hs]
  · rw [hZY _ (Nat.lt_succ_self _), hA]

/-- A labelling extends to the fragment of an edge, whatever is to follow it. -/
theorem exists_addEdge (hr : nfa.InRange) (hX : nfa.Labelling X) (on : Option CharSet)
    (K : Language Char) :
    ∃ Y, (nfa.addEdge on).1.Labelling Y ∧ (∀ s < nfa.size, Y s = X s) ∧
      Y (nfa.addEdge on).2.entry ≤ Transition.language ⟨on, nfa.size + 1⟩ * K ∧
      K ≤ Y (nfa.addEdge on).2.exit := by
  let t : Transition := ⟨on, nfa.size + 1⟩
  obtain ⟨Y, hY, hYX, hentry, hexit⟩ := hX.exists_addEnds hr (t.language * K) K
  refine ⟨Y, hY.addTransition (by simp) ?_, hYX, le_of_eq hentry, le_of_eq hexit.symm⟩
  rw [hentry, hexit]

/-- The label of a loop is the closure of its body, before each round as well as behind it. -/
theorem exists_addLoop {entry : Nat} {f : Fragment} {L : Language Char} (hr : nfa.InRange)
    (hX : nfa.Labelling X) (hentry : entry < nfa.size) (hf : f.Within 0 nfa.size)
    (hloop : X entry = L∗ * K) (hin : X f.entry ≤ L * (L∗ * K)) (hout : L∗ * K ≤ X f.exit) :
    ∃ Y, (nfa.addLoop entry f).Labelling Y ∧ (∀ s < nfa.size, Y s = X s) ∧
      K ≤ Y (nfa.size + 1) := by
  obtain ⟨Y, hY, hYX, hbypass, hexit⟩ := hX.exists_addEnds hr K K
  have skip : Y nfa.size ≤ L∗ * K := by
    rw [hbypass]
    exact le_mul_of_one_le_left' one_le_kstar
  have round : Y f.entry ≤ L∗ * K := by
    rw [hYX _ hf.entry_lt]
    apply hin.trans
    rw [← mul_assoc]
    exact mul_le_mul_left mul_kstar_le_kstar K
  rw [← hYX _ hentry] at hloop
  rw [← hYX _ hf.exit_lt] at hout
  have hlt : ∀ {s}, s < nfa.size → s < nfa.size + 2 := fun h ↦ Nat.lt_add_right 2 h
  have h₁ := hY.addFree (by rw [size_addEnds]; exact hlt hf.exit_lt) (round.trans hout)
  have h₂ := h₁.addFree (by simpa using hlt hf.exit_lt) (skip.trans hout)
  have h₃ := h₂.addFree (by simpa using hlt hentry) (round.trans_eq hloop.symm)
  have h₄ := h₃.addFree (by simpa using hlt hentry) (skip.trans_eq hloop.symm)
  have h₅ := h₄.addFree (s := nfa.size) (by simp) (hexit.trans_le hbypass.ge)
  exact ⟨Y, h₅, hYX, hexit.ge⟩

end Labelling

mutual

/-- A labelling extends to the fragment of an expression, whatever is to follow it: its
entry leads to nothing but words of the expression and what follows. -/
theorem labelling_addFragment {X : Nat → Language Char} (nfa : Nfa α) (r : Regex)
    (hr : nfa.InRange) (hX : nfa.Labelling X) (K : Language Char) :
    ∃ Y, (nfa.addFragment r).1.Labelling Y ∧ (∀ s < nfa.size, Y s = X s) ∧
      Y (nfa.addFragment r).2.entry ≤ r.language * K ∧ K ≤ Y (nfa.addFragment r).2.exit := by
  match r with
  | .seq [] => exact hX.exists_addEdge hr none K
  | .seq (r :: rs) =>
    obtain ⟨hext, hf⟩ := extends_addFragment nfa r
    obtain ⟨Y, hY, hYX, hin, hout⟩ :=
      labelling_addFragment nfa r hr hX (Regex.languageOfSeq rs * K)
    obtain ⟨Z, hZ, hZY, hexit⟩ := labelling_extend _ rs hf (hext.inRange hr) hY hout
    have hentry := (extends_extend (nfa.addFragment r).1 rs hf).2.2
    refine ⟨Z, hZ, ?_, ?_, hexit⟩
    · intro s hs
      rw [hZY s (Nat.lt_of_lt_of_le hs hext.size_le), hYX s hs]
    · change Z ((nfa.addFragment r).1.extend (nfa.addFragment r).2 rs).2.entry ≤
        r.language * Regex.languageOfSeq rs * K
      rw [hentry, hZY _ hf.entry_lt, mul_assoc]
      exact hin
  | .alt rs =>
    obtain ⟨Y, hY, hYX, hentry, hexit⟩ := hX.exists_addEnds hr (Regex.languageOfAlt rs * K) K
    have hf := within_addEnds nfa
    have hr' := ((Extends.refl _ nfa).addEnds (Nat.le_refl _)).inRange hr
    obtain ⟨Z, hZ, hZY⟩ := labelling_addBranches nfa.addEnds rs hf hr' hY
      (by rw [hentry, hexit])
    refine ⟨Z, hZ, ?_, ?_, ?_⟩
    · intro s hs
      rw [hZY s (by simpa using Nat.lt_add_right 2 hs), hYX s hs]
    · exact ((hZY _ hf.entry_lt).trans hentry).le
    · exact ((hZY _ hf.exit_lt).trans hexit).ge
  | .star r =>
    obtain ⟨hext, hf⟩ := extends_addFragment nfa.addState r
    have hr' := ((Extends.refl _ nfa).addState (Nat.le_refl _)).inRange hr
    obtain ⟨Y, hY, hYX, hentry⟩ := hX.exists_addState hr (r.language∗ * K)
    obtain ⟨Z, hZ, hZY, hin, hout⟩ := labelling_addFragment _ r hr' hY (r.language∗ * K)
    have hlt := hext.size_le
    rw [size_addState] at hZY hlt
    have hloop : Z nfa.size = r.language∗ * K := (hZY _ (Nat.lt_succ_self _)).trans hentry
    obtain ⟨W, hW, hWZ, hexit⟩ := hZ.exists_addLoop (hext.inRange hr') hlt
      (hf.mono (Nat.zero_le _) (Nat.le_refl _)) hloop hin hout
    refine ⟨W, hW, ?_, ?_, hexit⟩
    · intro s hs
      rw [hWZ s (by omega), hZY s (by omega), hYX s hs]
    · exact ((hWZ _ hlt).trans hloop).le
  | .set s => exact hX.exists_addEdge hr (some s) K
  | .empty => exact hX.exists_addEdge hr none K

/-- A labelling extends to the fragments of a sequence that continues a fragment. -/
theorem labelling_extend {lo : Nat} {f : Fragment} {X : Nat → Language Char} {K : Language Char}
    (nfa : Nfa α) (rs : List Regex) (hf : f.Within lo nfa.size) (hr : nfa.InRange)
    (hX : nfa.Labelling X) (h : Regex.languageOfSeq rs * K ≤ X f.exit) :
    ∃ Y, (nfa.extend f rs).1.Labelling Y ∧ (∀ s < nfa.size, Y s = X s) ∧
      K ≤ Y (nfa.extend f rs).2.exit := by
  match rs with
  | [] => exact ⟨X, hX, fun _ _ ↦ rfl, by rwa [Regex.languageOfSeq, one_mul] at h⟩
  | r :: rs =>
    obtain ⟨hext, hg⟩ := extends_addFragment nfa r
    obtain ⟨hnext, hwithin⟩ := hext.addNext hf hg
    obtain ⟨Y, hY, hYX, hin, hout⟩ :=
      labelling_addFragment nfa r hr hX (Regex.languageOfSeq rs * K)
    have hlink : Y (nfa.addFragment r).2.entry ≤ Y f.exit := by
      rw [hYX _ hf.exit_lt]
      apply hin.trans
      rw [← mul_assoc]
      exact h
    have hlinked := hY.addFree (Nat.lt_of_lt_of_le hf.exit_lt hext.size_le) hlink
    obtain ⟨Z, hZ, hZY, hexit⟩ := labelling_extend _ rs hwithin (hnext.inRange hr) hlinked hout
    refine ⟨Z, hZ, ?_, hexit⟩
    intro s hs
    rw [hZY s (Nat.lt_of_lt_of_le hs hnext.size_le), hYX s hs]

/-- A labelling extends to the branches of an alternative. -/
theorem labelling_addBranches {lo : Nat} {f : Fragment} {X : Nat → Language Char}
    (nfa : Nfa α) (rs : List Regex) (hf : f.Within lo nfa.size) (hr : nfa.InRange)
    (hX : nfa.Labelling X) (h : Regex.languageOfAlt rs * X f.exit ≤ X f.entry) :
    ∃ Y, (nfa.addBranches f rs).Labelling Y ∧ ∀ s < nfa.size, Y s = X s := by
  match rs with
  | [] => exact ⟨X, hX, fun _ _ ↦ rfl⟩
  | r :: rs =>
    obtain ⟨hext, hg⟩ := extends_addFragment nfa r
    obtain ⟨hway, hwithin⟩ := hext.addWay hf hg
    rw [Regex.languageOfAlt, add_mul, add_le_iff] at h
    obtain ⟨Y, hY, hYX, hin, hout⟩ := labelling_addFragment nfa r hr hX (X f.exit)
    have hentry := hYX _ hf.entry_lt
    have hexit := hYX _ hf.exit_lt
    have h₁ := hY.addFree (Nat.lt_of_lt_of_le hf.entry_lt hext.size_le)
      ((hin.trans h.1).trans_eq hentry.symm)
    have h₂ := h₁.addFree (by rw [size_addFree]; exact hg.exit_lt) (hexit.trans_le hout)
    obtain ⟨Z, hZ, hZY⟩ := labelling_addBranches _ rs hwithin (hway.inRange hr) h₂
      (by rw [hentry, hexit]; exact h.2)
    refine ⟨Z, hZ, ?_⟩
    intro s hs
    rw [hZY s (Nat.lt_of_lt_of_le hs hway.size_le), hYX s hs]

end

end RegexScan.Nfa
