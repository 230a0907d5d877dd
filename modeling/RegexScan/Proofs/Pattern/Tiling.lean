import Mathlib.Algebra.Ring.Parity
import Mathlib.Data.List.DropRight
import RegexScan.Proofs.Pattern.Kinds

/-!
# How tokens cover a pattern

A token covers one character, or a backslash and the character behind it, and the tokens in front of
the end lie side by side.  A backslash that has nothing to escape lies behind all of them.  Where
none does, the tokens of a longer pattern are those of its beginning and those of the rest.
-/

namespace RegexScan.Pattern

/-! ## Tokens one at a time -/

/-- The characters that have not been read, the place of the first of them, the number of all
characters, and whether the end has been handed out. -/
structure Cursor where
  rest : List Char
  offset : Nat
  length : Nat
  ended : Bool

namespace Cursor

def start (p : List Char) : Cursor := ⟨p, 0, p.length, false⟩

/-- Hand out the end, but only once. -/
def finish (k : Cursor) : Option (Token × Cursor) :=
  if k.ended then none else some (⟨.endOfPattern, k.length⟩, { k with ended := true })

/-- The next token.  The end is reached in front of no character and in front of a backslash that
is the last one. -/
def next : Cursor → Option (Token × Cursor)
  | ⟨[], offset, length, ended⟩ => finish ⟨[], offset, length, ended⟩
  | ⟨['\\'], offset, length, ended⟩ => finish ⟨[], offset + 1, length, ended⟩
  | ⟨'\\' :: c :: cs, offset, length, ended⟩ =>
    some (⟨escaped c, offset⟩, ⟨cs, offset + 2, length, ended⟩)
  | ⟨c :: cs, offset, length, ended⟩ => some (⟨plain c, offset⟩, ⟨cs, offset + 1, length, ended⟩)

/-- How many tokens there can still be. -/
def left (k : Cursor) : Nat := k.rest.length + if k.ended then 0 else 1

theorem left_finish {k k' : Cursor} {t : Token} (h : k.finish = some (t, k')) :
    k'.left < k.left := by
  rw [finish] at h
  split at h
  · cases h
  · next hended =>
    cases h
    rw [left, left, if_pos rfl, if_neg hended]
    exact Nat.lt_succ_self _

/-- Giving a token leaves less to be done. -/
theorem left_next {k k' : Cursor} {t : Token} (h : k.next = some (t, k')) : k'.left < k.left := by
  rw [next.eq_def] at h
  split at h
  · exact left_finish h
  · exact (left_finish h).trans_le (Nat.add_le_add_right (Nat.zero_le _) _)
  · cases h
    exact Nat.add_lt_add_right (Nat.lt_succ_of_lt (Nat.lt_succ_self _)) _
  · cases h
    exact Nat.add_lt_add_right (Nat.lt_succ_self _) _

/-- All tokens that are left. -/
def tokens (k : Cursor) : List Token :=
  match _h : k.next with
  | none => []
  | some (t, k) => t :: k.tokens
termination_by k.left
decreasing_by exact left_next _h

/-- The tokens of a cursor are the next one and those behind it. -/
theorem tokens_of_next {k k' : Cursor} {t : Token} (h : k.next = some (t, k')) :
    k.tokens = t :: k'.tokens := by
  rw [tokens]
  split
  · next hnone =>
    rw [h] at hnone
    cases hnone
  · next hsome =>
    rw [h] at hsome
    cases hsome
    rfl

theorem tokens_of_ended (offset length : Nat) : tokens ⟨[], offset, length, true⟩ = [] := by
  rw [tokens]
  rfl

theorem next_plain {c : Char} (hc : c ≠ '\\') (p : List Char) (offset length : Nat)
    (ended : Bool) : next ⟨c :: p, offset, length, ended⟩ =
      some (⟨plain c, offset⟩, ⟨p, offset + 1, length, ended⟩) :=
  next.eq_4 _ _ _ _ _ (fun h _ ↦ hc h) fun _ _ h _ ↦ hc h

/-- A cursor gives the tokens of the list of characters. -/
theorem tokens_eq_lexFrom (p : List Char) (offset length : Nat) (h : offset + p.length = length) :
    tokens ⟨p, offset, length, false⟩ = lexFrom offset p := by
  induction p using escape_induction generalizing offset with
  | nil =>
    obtain rfl := h
    rw [tokens_of_next rfl, tokens_of_ended]
    rfl
  | dangling =>
    obtain rfl := h
    rw [tokens_of_next rfl, tokens_of_ended]
    rfl
  | escape c p ih =>
    rw [List.length_cons, List.length_cons] at h
    rw [tokens_of_next rfl, lexFrom, ih _ (by omega)]
  | plain c p hc ih =>
    rw [List.length_cons] at h
    rw [tokens_of_next (next_plain hc ..), lexFrom_cons hc, ih _ (by omega)]

end Cursor

/-! ## What a token covers -/

/-- What characters mean as one token. -/
inductive Means : List Char → TokenKind → Prop
  | plain {c : Char} : c ≠ '\\' → Means [c] (plain c)
  | escaped (c : Char) : Means ['\\', c] (escaped c)

/-- No characters mean the end. -/
theorem Means.ne_endOfPattern {w : List Char} {k : TokenKind} (h : Means w k) :
    k ≠ .endOfPattern := by
  cases h with
  | plain => exact plain_ne_endOfPattern _
  | escaped => exact escaped_ne_endOfPattern _

namespace Token

variable (p : List Char)

/-- How many characters a token of a pattern takes: a backslash takes the character behind it
along. -/
def width (t : Token) : Nat := if p[t.offset]? = some '\\' ∧ t.offset + 1 < p.length then 2 else 1

def text (t : Token) : List Char := (p.drop t.offset).take (t.width p)

def Covers (t : Token) (i : Nat) : Prop := t.offset ≤ i ∧ i < t.offset + t.width p

/-- The token further behind. -/
def shift (n : Nat) (t : Token) : Token := ⟨t.kind, n + t.offset⟩

theorem width_pos (t : Token) : 0 < t.width p := by
  rw [width]
  split
  · exact Nat.zero_lt_two
  · exact Nat.one_pos

end Token

/-- Tokens of a pattern lie side by side from one place to another. -/
inductive Tiles (p : List Char) : Nat → List Token → Nat → Prop
  | nil (i : Nat) : Tiles p i [] i
  | cons {t : Token} {ts : List Token} {stop : Nat} : Means (t.text p) t.kind →
      Tiles p (t.offset + t.width p) ts stop → Tiles p t.offset (t :: ts) stop

namespace Tiles

variable {p : List Char} {ts : List Token} {start stop : Nat}

theorem le (h : Tiles p start ts stop) : start ≤ stop := by
  induction h with
  | nil i => exact Nat.le_refl i
  | cons _ _ ih => exact (Nat.le_add_right _ _).trans ih

theorem within (h : Tiles p start ts stop) {t : Token} (ht : t ∈ ts) :
    start ≤ t.offset ∧ t.offset + t.width p ≤ stop := by
  induction h with
  | nil i => cases ht
  | cons _ hrest ih =>
    cases ht with
    | head => exact ⟨Nat.le_refl _, hrest.le⟩
    | tail _ ht => exact ⟨(Nat.le_add_right _ _).trans (ih ht).1, (ih ht).2⟩

theorem means (h : Tiles p start ts stop) {t : Token} (ht : t ∈ ts) : Means (t.text p) t.kind := by
  induction h with
  | nil i => cases ht
  | cons hmeans _ ih =>
    cases ht with
    | head => exact hmeans
    | tail _ ht => exact ih ht

/-- The tiles lie in ascending order. -/
theorem pairwise (h : Tiles p start ts stop) : ts.Pairwise fun t u ↦ t.offset < u.offset := by
  induction h with
  | nil i => exact .nil
  | @cons t _ _ _ hrest ih =>
    refine .cons (fun u hu ↦ ?_) ih
    exact (Nat.lt_add_of_pos_right (t.width_pos p)).trans_le (hrest.within hu).1

/-- Each place in between is covered once. -/
theorem existsUnique_covers (h : Tiles p start ts stop) {i : Nat} (hstart : start ≤ i)
    (hstop : i < stop) : ∃! t, t ∈ ts ∧ t.Covers p i := by
  induction h with
  | nil j => exact absurd hstop (Nat.not_lt_of_le hstart)
  | @cons t ts stop _ hrest ih =>
    by_cases hi : i < t.offset + t.width p
    · refine ⟨t, ⟨List.mem_cons_self, hstart, hi⟩, ?_⟩
      rintro u ⟨hu, hcovers⟩
      cases hu with
      | head => rfl
      | tail _ hu => exact absurd hi (Nat.not_lt_of_le ((hrest.within hu).1.trans hcovers.1))
    · obtain ⟨u, ⟨hu, hcovers⟩, hunique⟩ := ih (Nat.le_of_not_lt hi) hstop
      refine ⟨u, ⟨List.mem_cons_of_mem t hu, hcovers⟩, ?_⟩
      rintro v ⟨hv, hcovers⟩
      cases hv with
      | head => exact absurd hcovers.2 hi
      | tail _ hv => exact hunique v ⟨hv, hcovers⟩

end Tiles

/-! ## The tokens of a pattern lie side by side -/

section

variable {front rest : List Char} {ts : List Token} {stop : Nat}

theorem Tiles.consPlain {c : Char} (hc : c ≠ '\\')
    (h : Tiles (front ++ c :: rest) (front.length + 1) ts stop) :
    Tiles (front ++ c :: rest) front.length (⟨plain c, front.length⟩ :: ts) stop := by
  have hwidth : Token.width (front ++ c :: rest) ⟨plain c, front.length⟩ = 1 := by
    rw [Token.width, if_neg]
    rintro ⟨hget, -⟩
    rw [List.getElem?_append_right (Nat.le_refl _), Nat.sub_self, List.getElem?_cons_zero] at hget
    exact hc (Option.some.inj hget)
  have htext : Token.text (front ++ c :: rest) ⟨plain c, front.length⟩ = [c] := by
    rw [Token.text, hwidth, List.drop_left, List.take_succ_cons, List.take_zero]
  exact .cons (t := ⟨plain c, front.length⟩) (htext ▸ .plain hc) (hwidth.symm ▸ h)

theorem Tiles.consEscaped {c : Char}
    (h : Tiles (front ++ '\\' :: c :: rest) (front.length + 2) ts stop) :
    Tiles (front ++ '\\' :: c :: rest) front.length (⟨escaped c, front.length⟩ :: ts) stop := by
  have hwidth : Token.width (front ++ '\\' :: c :: rest) ⟨escaped c, front.length⟩ = 2 := by
    rw [Token.width, if_pos]
    constructor
    · rw [List.getElem?_append_right (Nat.le_refl _), Nat.sub_self, List.getElem?_cons_zero]
    · rw [List.length_append]
      exact Nat.add_lt_add_left (Nat.succ_lt_succ (Nat.succ_pos _)) _
  have htext : Token.text (front ++ '\\' :: c :: rest) ⟨escaped c, front.length⟩ = ['\\', c] := by
    rw [Token.text, hwidth, List.drop_left, List.take_succ_cons, List.take_succ_cons,
      List.take_zero]
  exact .cons (t := ⟨escaped c, front.length⟩) (htext ▸ .escaped c) (hwidth.symm ▸ h)

end

/-- The tokens in front of the end cover everything but a backslash that has nothing to escape. -/
theorem exists_tiles {whole front p : List Char} (h : front ++ p = whole) :
    ∃ ts stop, lexFrom front.length p = ts ++ [⟨.endOfPattern, whole.length⟩] ∧
      Tiles whole front.length ts stop ∧ stop + (dangles p).toNat = whole.length := by
  -- the characters in front are kept because the places of the tokens count them
  induction p using escape_induction generalizing front with
  | nil =>
    obtain rfl : front = whole := (List.append_nil front).symm.trans h
    exact ⟨[], front.length, rfl, .nil _, rfl⟩
  | dangling =>
    obtain rfl := h
    have hlength : (front ++ ['\\']).length = front.length + 1 := List.length_append
    exact ⟨[], front.length, by rw [hlength]; rfl, .nil _, hlength.symm⟩
  | escape c p ih =>
    have hlength : (front ++ ['\\', c]).length = front.length + 2 := List.length_append
    obtain ⟨ts, stop, hlex, htiles, hstop⟩ := ih ((List.append_assoc front ['\\', c] p).trans h)
    rw [hlength] at hlex htiles
    obtain rfl := h
    refine ⟨⟨escaped c, front.length⟩ :: ts, stop, ?_, htiles.consEscaped, hstop⟩
    rw [lexFrom, hlex, List.cons_append]
  | plain c p hc ih =>
    have hlength : (front ++ [c]).length = front.length + 1 := List.length_append
    obtain ⟨ts, stop, hlex, htiles, hstop⟩ := ih ((List.append_assoc front [c] p).trans h)
    rw [hlength] at hlex htiles
    obtain rfl := h
    refine ⟨⟨plain c, front.length⟩ :: ts, stop, ?_, htiles.consPlain hc, ?_⟩
    · rw [lexFrom_cons hc, hlex, List.cons_append]
    · rw [dangles_cons hc, hstop]

/-! ## The tokens of a longer pattern -/

theorem lexFrom_ne_nil (offset : Nat) (p : List Char) : lexFrom offset p ≠ [] := by
  rw [lexFrom.eq_def]
  split <;> exact List.cons_ne_nil _ _

/-- The tokens of a text go on with those of another, unless a backslash dangles between
them. -/
theorem lexFrom_append {p : List Char} (h : dangles p = false) (offset : Nat) (q : List Char) :
    lexFrom offset (p ++ q) = (lexFrom offset p).dropLast ++ lexFrom (offset + p.length) q := by
  induction p using escape_induction generalizing offset with
  | nil => rfl
  | dangling => cases h
  | escape c p ih =>
    rw [List.cons_append, List.cons_append, lexFrom, lexFrom, ih h,
      List.dropLast_cons_of_ne_nil (lexFrom_ne_nil _ _), List.cons_append, Nat.add_right_comm]
    rfl
  | plain c p hc ih =>
    rw [dangles_cons hc] at h
    rw [List.cons_append, lexFrom_cons hc, lexFrom_cons hc, ih h,
      List.dropLast_cons_of_ne_nil (lexFrom_ne_nil _ _), List.cons_append, Nat.add_right_comm]
    rfl

/-- Where a text begins matters to the offsets of its tokens only. -/
theorem lexFrom_add (n offset : Nat) (p : List Char) :
    lexFrom (n + offset) p = (lexFrom offset p).map (.shift n) := by
  induction p using escape_induction generalizing offset with
  | nil => rfl
  | dangling => rfl
  | escape c p ih =>
    rw [lexFrom, lexFrom, List.map_cons, ← ih]
    rfl
  | plain c p hc ih =>
    rw [lexFrom_cons hc, lexFrom_cons hc, List.map_cons, ← ih]
    rfl

/-! ## Backslashes at the end -/

/-- Whether a text dangles is up to its end. -/
theorem dangles_append {p : List Char} (h : dangles p = false) (q : List Char) :
    dangles (p ++ q) = dangles q := by
  induction p using escape_induction with
  | nil => rfl
  | dangling => cases h
  | escape c p ih => exact ih h
  | plain c p hc ih =>
    rw [dangles_cons hc] at h
    rw [List.cons_append, dangles_cons hc, ih h]

/-- A text that dangles ends with a backslash. -/
theorem getLast?_of_dangles {p : List Char} (h : dangles p = true) : p.getLast? = some '\\' := by
  induction p using escape_induction with
  | nil => cases h
  | dangling => rfl
  | escape c p ih => rw [List.getLast?_cons, List.getLast?_cons, ih h]; rfl
  | plain c p hc ih =>
    rw [dangles_cons hc] at h
    rw [List.getLast?_cons, ih h]
    rfl

/-- Backslashes dangle when their number is odd. -/
theorem dangles_replicate (n : Nat) : dangles (.replicate n '\\') = true ↔ Odd n := by
  induction n using Nat.twoStepInduction with
  | zero => decide
  | one => decide
  | more n ih _ =>
    rw [Nat.odd_add, ← ih]
    exact (iff_true_right even_two).symm

/-- Backslashes at the end of a pattern escape each other in pairs, and one is left over if their
number is odd. -/
theorem dangles_iff_odd (p : List Char) :
    dangles p = true ↔ Odd (p.rtakeWhile (· = '\\')).length := by
  have hfront : dangles (p.rdropWhile (· = '\\')) = false := by
    by_contra h
    obtain ⟨hne, hlast⟩ :=
      List.mem_getLast?_eq_getLast (getLast?_of_dangles (Bool.eq_true_of_not_eq_false h))
    exact List.rdropWhile_last_not _ p hne (decide_eq_true hlast.symm)
  have hbehind : p.rtakeWhile (· = '\\') =
      .replicate (p.rtakeWhile (· = '\\')).length '\\' := by
    refine List.eq_replicate_length.mpr fun c hc ↦ ?_
    exact of_decide_eq_true (List.mem_rtakeWhile_imp (p := fun c ↦ decide (c = '\\')) hc)
  have hsplit := dangles_append hfront (p.rtakeWhile (· = '\\'))
  rw [List.rdropWhile_append_rtakeWhile] at hsplit
  rw [hsplit, ← dangles_replicate, ← hbehind]

/-- A pattern ends with its one end token, which stands behind all characters.  The tokens in front
cover each character once, except for a backslash that has nothing to escape, and mean what they
cover.  Without such a backslash the tokens of a longer pattern begin with the same. -/
theorem lex_tiles (p : String) :
    (Cursor.start p.toList).tokens = lex p ∧
      (dangles p.toList = true ↔ Odd (p.toList.rtakeWhile (· = '\\')).length) ∧
      ∃ ts, lex p = ts ++ [⟨.endOfPattern, p.length⟩] ∧
        (∀ t ∈ ts, t.kind ≠ .endOfPattern ∧ Means (t.text p.toList) t.kind) ∧
        (lex p).Pairwise (fun t u ↦ t.offset < u.offset) ∧
        (∀ i, if i + (dangles p.toList).toNat < p.length
          then ∃! t, t ∈ ts ∧ t.Covers p.toList i else ∀ t ∈ ts, ¬t.Covers p.toList i) ∧
        (dangles p.toList = false →
          ∀ q, lex (p ++ q) = ts ++ (lex q).map (.shift p.length)) := by
  obtain ⟨ts, stop, hlex, htiles, hstop⟩ := exists_tiles (List.nil_append p.toList)
  rw [String.length_toList] at hlex hstop
  change lex p = _ at hlex
  refine ⟨?_, dangles_iff_odd _, ts, hlex, ?_, ?_, ?_, ?_⟩
  · exact Cursor.tokens_eq_lexFrom _ 0 _ (Nat.zero_add _)
  · exact fun t ht ↦ ⟨(htiles.means ht).ne_endOfPattern, htiles.means ht⟩
  · rw [hlex, List.pairwise_append]
    refine ⟨htiles.pairwise, List.pairwise_singleton _ _, fun t ht u hu ↦ ?_⟩
    obtain rfl := List.mem_singleton.mp hu
    have hwithin := (htiles.within ht).2
    have hpos := t.width_pos p.toList
    change t.offset < p.length
    omega
  · intro i
    split
    · exact htiles.existsUnique_covers (Nat.zero_le i) (by omega)
    · rintro t ht ⟨-, hlt⟩
      have hwithin := (htiles.within ht).2
      omega
  · intro h q
    rw [lex, String.toList_append, lexFrom_append h]
    change (lex p).dropLast ++ _ = _
    rw [hlex, List.dropLast_concat, String.length_toList, Nat.zero_add, lex, ← lexFrom_add]
    rfl

end RegexScan.Pattern
