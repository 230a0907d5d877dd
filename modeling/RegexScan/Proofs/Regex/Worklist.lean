import Mathlib.Data.Fintype.Card
import Mathlib.Logic.Relation
import RegexScan.Proofs.Regex.Ends

/-!
# Iterating from a worklist

An iteration may as well keep a list of the positions from which its body is still to be tried, and
begin with the one that was reached last.  A position waits once, when it is first reached, and
there are only so many positions, so this comes to an end whatever the body matches.  By then the
body has been tried from every position that was reached, so all chains of rounds have been
followed, and following a tree in this way finds the same positions in the same order.
-/

namespace RegexScan

/-- The positions an iteration has reached, ascending, and those from which its body is still to be
tried, the next one first. -/
structure Worklist (n : Nat) where
  reached : List (Fin n)
  waiting : List (Fin n)

namespace Worklist

variable {n : Nat}

def start (p : Fin n) : Worklist n := ⟨[p], [p]⟩

/-- A position waits when it is reached for the first time. -/
def reach (w : Worklist n) (e : Fin n) : Worklist n :=
  if e ∈ w.reached then w else ⟨Ascending.union w.reached [e], e :: w.waiting⟩

/-! ## An iteration ends -/

def unreached (w : Worklist n) : Finset (Fin n) := {e | e ∉ w.reached}

/-- What is left to be done at most. -/
def left (w : Worklist n) : Nat := w.unreached.card + w.waiting.length

/-- Reaching a position takes one from the unreached and puts it among the waiting, so
the measure stays. -/
theorem left_reach (w : Worklist n) (e : Fin n) : (w.reach e).left = w.left := by
  rw [reach]
  split
  · rfl
  · next he =>
    have hmem : e ∈ w.unreached := by simpa [unreached] using he
    have herase : unreached ⟨Ascending.union w.reached [e], e :: w.waiting⟩ =
        w.unreached.erase e := by
      ext x
      simp [unreached, Ascending.mem_union]
      tauto
    have hpos : 0 < w.unreached.card := Finset.card_pos.mpr ⟨e, hmem⟩
    rw [left, herase, Finset.card_erase_of_mem hmem, left, List.length_cons]
    omega

theorem left_foldl_reach (w : Worklist n) (es : List (Fin n)) :
    (es.foldl reach w).left = w.left := by
  induction es generalizing w with
  | nil => rfl
  | cons e es ih => rw [List.foldl_cons, ih, left_reach]

/-- Try the body from the positions that wait, until none does. -/
def drain (f : Fin n → List (Fin n)) (w : Worklist n) : List (Fin n) :=
  match w with
  | ⟨reached, []⟩ => reached
  | ⟨reached, p :: waiting⟩ => drain f ((f p).foldl reach ⟨reached, waiting⟩)
termination_by w.left
decreasing_by
  rw [left_foldl_reach]
  exact Nat.lt_succ_self _

/-! ## What an iteration reaches -/

section

variable {w : Worklist n} {x e : Fin n}

theorem mem_reached_reach : x ∈ (w.reach e).reached ↔ x ∈ w.reached ∨ x = e := by
  rw [reach]
  split
  · next he =>
    constructor
    · exact .inl
    · rintro (hx | rfl)
      · exact hx
      · exact he
  · rw [Ascending.mem_union, List.mem_singleton]

theorem mem_waiting_reach :
    x ∈ (w.reach e).waiting ↔ x ∈ w.waiting ∨ x = e ∧ x ∉ w.reached := by
  rw [reach]
  split
  · next he =>
    refine ⟨.inl, ?_⟩
    rintro (hx | ⟨rfl, hx⟩)
    · exact hx
    · exact absurd he hx
  · next he =>
    rw [List.mem_cons]
    constructor
    · rintro (rfl | hx)
      · exact .inr ⟨rfl, he⟩
      · exact .inl hx
    · rintro (hx | ⟨rfl, -⟩)
      · exact .inr hx
      · exact .inl rfl

theorem pairwise_reach (h : w.reached.Pairwise (· < ·)) :
    (w.reach e).reached.Pairwise (· < ·) := by
  rw [reach]
  split
  · exact h
  · exact Ascending.pairwise_union h (List.pairwise_singleton ..)

variable {es : List (Fin n)}

theorem mem_reached_foldl_reach :
    x ∈ (es.foldl reach w).reached ↔ x ∈ w.reached ∨ x ∈ es := by
  induction es generalizing w with
  | nil => simp
  | cons e es ih => rw [List.foldl_cons, ih, mem_reached_reach, List.mem_cons, or_assoc]

/-- Of the positions those wait that were not reached before. -/
theorem mem_waiting_foldl_reach :
    x ∈ (es.foldl reach w).waiting ↔ x ∈ w.waiting ∨ x ∈ es ∧ x ∉ w.reached := by
  induction es generalizing w with
  | nil => simp
  | cons e es ih =>
    rw [List.foldl_cons, ih, mem_waiting_reach, mem_reached_reach, List.mem_cons]
    tauto

theorem pairwise_foldl_reach (h : w.reached.Pairwise (· < ·)) :
    (es.foldl reach w).reached.Pairwise (· < ·) := by
  induction es generalizing w with
  | nil => exact h
  | cons e es ih => exact ih (pairwise_reach h)

end

section

variable {f : Fin n → List (Fin n)} {p e : Fin n} {w : Worklist n}

/-- What holds while an iteration goes on: it has come to the positions it has reached by rounds,
and the body has been tried from all of them but those that wait. -/
structure Iterates (f : Fin n → List (Fin n)) (p : Fin n) (w : Worklist n) : Prop where
  ascending : w.reached.Pairwise (· < ·)
  mem_start : p ∈ w.reached
  rounds : ∀ q ∈ w.reached, Relation.ReflTransGen (fun i j ↦ j ∈ f i) p q
  mem_reached : ∀ q ∈ w.waiting, q ∈ w.reached
  tried : ∀ q ∈ w.reached, q ∈ w.waiting ∨ ∀ e ∈ f q, e ∈ w.reached

/-- An iteration begins with its start, which waits. -/
theorem iterates_start (f : Fin n → List (Fin n)) (p : Fin n) : Iterates f p (.start p) where
  ascending := List.pairwise_singleton ..
  mem_start := List.mem_singleton_self p
  rounds _ hq := List.mem_singleton.mp hq ▸ .refl
  mem_reached _ := id
  tried _ := .inl

/-- One turn. -/
theorem Iterates.turn {reached waiting : List (Fin n)} {q : Fin n}
    (h : Iterates f p ⟨reached, q :: waiting⟩) :
    Iterates f p ((f q).foldl reach ⟨reached, waiting⟩) where
  ascending := pairwise_foldl_reach h.ascending
  mem_start := mem_reached_foldl_reach.mpr (.inl h.mem_start)
  rounds x hx := by
    rcases mem_reached_foldl_reach.mp hx with hx | hx
    · exact h.rounds x hx
    · exact (h.rounds q (h.mem_reached q List.mem_cons_self)).tail hx
  mem_reached x hx := by
    rw [mem_reached_foldl_reach]
    rcases mem_waiting_foldl_reach.mp hx with hx | ⟨hx, -⟩
    · exact .inl (h.mem_reached x (.tail _ hx))
    · exact .inr hx
  tried x hx := by
    simp only [mem_reached_foldl_reach, mem_waiting_foldl_reach] at hx ⊢
    by_cases hreached : x ∈ reached
    · rcases h.tried x hreached with hwaiting | htried
      · rcases List.mem_cons.mp hwaiting with rfl | hwaiting
        · exact .inr fun e he ↦ .inr he
        · exact .inl (.inl hwaiting)
      · exact .inr fun e he ↦ .inl (htried e he)
    · exact .inl (.inr ⟨hx.resolve_left hreached, hreached⟩)

/-- A whole iteration: it comes to the positions that rounds of the body lead to. -/
theorem Iterates.drain (h : Iterates f p w) :
    (drain f w).Pairwise (· < ·) ∧
      ∀ e, e ∈ drain f w ↔ Relation.ReflTransGen (fun i j ↦ j ∈ f i) p e := by
  fun_induction Worklist.drain f w with
  | case1 reached =>
    refine ⟨h.ascending, fun e ↦ ⟨h.rounds e, fun hrounds ↦ ?_⟩⟩
    induction hrounds with
    | refl => exact h.mem_start
    | tail _ he ih =>
      rcases h.tried _ ih with hwaiting | htried
      · cases hwaiting
      · exact htried _ he
  | case2 reached q waiting ih => exact ih h.turn

end

end Worklist

namespace Regex

/-- A place between two characters of a text, or at one of its ends. -/
abbrev Position (text : Array Char) := Fin (text.size + 1)

mutual

/-- The positions at which a match that begins at `start` can end, ascending.  The body of a star is
tried from a worklist. -/
def stops (text : Array Char) : Regex → (start : Position text) → List (Position text)
  | .set s, start =>
    if h : start < text.size then
      if s.contains text[start] then [⟨start + 1, Nat.succ_lt_succ h⟩] else []
    else []
  | .empty, start => [start]
  | .seq rs, start => stopsOfSeq text rs [start]
  | .alt rs, start => stopsOfAlt text rs start []
  | .star r, start => Worklist.drain (r.stops text) (.start start)

def stopsOfSeq (text : Array Char) : List Regex → (starts : List (Position text)) →
    List (Position text)
  | [], starts => starts
  | r :: rs, starts => stopsOfSeq text rs (Ascending.ofList (starts.flatMap (r.stops text)))

def stopsOfAlt (text : Array Char) : List Regex → (start : Position text) →
    (found : List (Position text)) → List (Position text)
  | [], _, found => found
  | r :: rs, start, found => stopsOfAlt text rs start (Ascending.union found (r.stops text start))

end

theorem map_val_ofList {n : Nat} (ps : List (Fin n)) :
    (Ascending.ofList ps).map Fin.val = Ascending.ofList (ps.map Fin.val) := by
  have hmap : ((Ascending.ofList ps).map Fin.val).Pairwise (· < ·) :=
    List.pairwise_map.mpr (Ascending.pairwise_ofList ps)
  refine hmap.eq_of_mem_iff (Ascending.pairwise_ofList _) fun e ↦ ?_
  simp only [List.mem_map, Ascending.mem_ofList]

open scoped Computability

variable {text : Array Char}

/-- Rounds lead to where a piece of the closure ends. -/
theorem rounds_iff {L : Language Char} {f : Position text → List (Position text)}
    (hf : ∀ p e, e ∈ f p ↔ p ≤ e ∧ slice text p e ∈ L) {p e : Position text} :
    Relation.ReflTransGen (fun i j ↦ j ∈ f i) p e ↔ p ≤ e ∧ slice text p e ∈ L∗ := by
  constructor
  · intro h
    induction h with
    | refl => exact ⟨Nat.le_refl _, slice_self ▸ Language.nil_mem_kstar L⟩
    | @tail q e _ he ih =>
      obtain ⟨hqe, hlast⟩ := (hf q e).mp he
      have hpe : p ≤ e := Nat.le_trans ih.1 hqe
      refine ⟨hpe, ?_⟩
      rw [← Language.one_add_kstar_mul_self_eq_kstar, Language.mem_add,
        slice_mem_mul hpe (Nat.le_of_lt_succ e.isLt)]
      exact .inr ⟨q, ih.1, hqe, ih.2, hlast⟩
  · -- the last round begins further left
    rintro ⟨hpe, hw⟩
    obtain ⟨e, he⟩ := e
    induction e using Nat.strongRecOn with
    | ind e ih =>
      rcases (slice_mem_kstar hpe (Nat.le_of_lt_succ he)).mp hw with heq | ⟨q, hpq, hqe, hu, hv⟩
      · obtain rfl : p = ⟨e, he⟩ := Fin.ext heq.symm
        exact .refl
      · have hq : q < text.size + 1 := Nat.lt_trans hqe he
        exact (ih q hqe hq hpq hu).tail ((hf ⟨q, hq⟩ ⟨e, he⟩).mpr ⟨Nat.le_of_lt hqe, hv⟩)

/-- Ascending positions that are the ends of a language's pieces. -/
theorem EndsOf.map_val_eq {L : Language Char} {start : Nat} {es : List Nat}
    {ps : List (Position text)} (h : EndsOf text L start es) (hps : ps.Pairwise (· < ·))
    (hmem : ∀ p, p ∈ ps ↔ p.val ∈ es) : ps.map Fin.val = es := by
  have hmap : (ps.map Fin.val).Pairwise (· < ·) := List.pairwise_map.mpr hps
  refine hmap.eq_of_mem_iff h.ascending fun e ↦ ?_
  rw [List.mem_map]
  constructor
  · rintro ⟨p, hp, rfl⟩
    exact (hmem p).mp hp
  · intro he
    have hlt : e < text.size + 1 := Nat.lt_succ_of_le ((h.mem_iff e).mp he).2.1
    exact ⟨⟨e, hlt⟩, (hmem ⟨e, hlt⟩).mpr he, rfl⟩

mutual

/-- The worklist reaches the ends of a tree. -/
theorem map_val_stops (r : Regex) (start : Position text) :
    (r.stops text start).map Fin.val = r.ends text start := by
  have hle : start.val ≤ text.size := Nat.le_of_lt_succ start.isLt
  match r with
  | .set s =>
    rw [stops, ends]
    by_cases h : start.val < text.size
    · rw [dif_pos h, Array.getElem?_eq_getElem h, apply_ite (List.map Fin.val)]
      rfl
    · rw [dif_neg h, Array.getElem?_eq_none (Nat.le_of_not_lt h)]
      rfl
  | .empty => rw [stops, ends, List.map_singleton]
  | .seq rs => rw [stops, ends, map_val_stopsOfSeq rs, List.map_singleton]
  | .alt rs =>
    obtain ⟨hascending, hmem⟩ := mem_stopsOfAlt rs start .nil
    have hends := endsOf_ends (.alt rs) start.val hle
    rw [stops]
    apply hends.map_val_eq hascending
    intro p
    rw [hmem, ends]
    exact or_iff_right List.not_mem_nil
  | .star r =>
    have hrounds : ∀ p e, e ∈ r.stops text p ↔ p ≤ e ∧ slice text p e ∈ r.language := by
      intro p e
      rw [← List.mem_map_of_injective Fin.val_injective, map_val_stops r p,
        mem_ends_iff (Nat.le_of_lt_succ p.isLt)]
      exact and_congr_right fun _ ↦ and_iff_right (Nat.le_of_lt_succ e.isLt)
    obtain ⟨hascending, hmem⟩ := (Worklist.iterates_start (r.stops text) start).drain
    have hends := endsOf_ends (.star r) start.val hle
    rw [stops]
    apply hends.map_val_eq hascending
    intro p
    rw [hmem, rounds_iff hrounds, hends.mem_iff, language]
    exact and_congr_right fun _ ↦ (and_iff_right (Nat.le_of_lt_succ p.isLt)).symm

/-- The worklist reaches the ends of a sequence. -/
theorem map_val_stopsOfSeq (rs : List Regex) (starts : List (Position text)) :
    (stopsOfSeq text rs starts).map Fin.val = endsOfSeq text rs (starts.map Fin.val) := by
  match rs with
  | [] => rw [stopsOfSeq, endsOfSeq]
  | r :: rs =>
    rw [stopsOfSeq, endsOfSeq, map_val_stopsOfSeq rs, map_val_ofList, List.map_flatMap,
      List.flatMap_map]
    simp only [map_val_stops r]

/-- The worklist reaches the ends of alternatives, besides what was found. -/
theorem mem_stopsOfAlt (rs : List Regex) (start : Position text) {found : List (Position text)}
    (hfound : found.Pairwise (· < ·)) :
    (stopsOfAlt text rs start found).Pairwise (· < ·) ∧
      ∀ p, p ∈ stopsOfAlt text rs start found ↔ p ∈ found ∨ p.val ∈ endsOfAlt text rs start := by
  match rs with
  | [] =>
    rw [stopsOfAlt, endsOfAlt]
    exact ⟨hfound, fun p ↦ (or_iff_left List.not_mem_nil).symm⟩
  | r :: rs =>
    have hstops := map_val_stops r start
    have hends := endsOf_ends r start.val (Nat.le_of_lt_succ start.isLt)
    have hascending : ((r.stops text start).map Fin.val).Pairwise (· < ·) :=
      hstops ▸ hends.ascending
    rw [List.pairwise_map] at hascending
    obtain ⟨hall, hmem⟩ := mem_stopsOfAlt rs start (Ascending.pairwise_union hfound hascending)
    rw [stopsOfAlt, endsOfAlt]
    refine ⟨hall, fun p ↦ ?_⟩
    rw [hmem, Ascending.mem_union, Ascending.mem_union, ← hstops,
      List.mem_map_of_injective Fin.val_injective, or_assoc]

end

/-- Following a tree from a position of the text, or from its end, always comes to an end, even if
a star is over something that matches the empty text, and it finds exactly the positions behind the
pieces of the text that the tree matches. -/
theorem ends_finds_exactly_matches (text : Array Char) (r : Regex) (start : Position text) :
    (r.stops text start).map Fin.val = r.ends text start ∧
      (r.ends text start).Pairwise (· < ·) ∧
      ∀ e, e ∈ r.ends text start ↔
        start ≤ e ∧ e ≤ text.size ∧ slice text start e ∈ r.language := by
  have hends := endsOf_ends r start.val (Nat.le_of_lt_succ start.isLt)
  exact ⟨map_val_stops r start, hends.ascending, hends.mem_iff⟩

end Regex

end RegexScan
