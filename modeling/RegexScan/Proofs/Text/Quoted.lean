import Mathlib.Tactic.Common
import RegexScan.Text.Quoted

/-!
# Quoted text can be read back

What a character is written as between quotes tells the character, and where the next one begins.
So texts that are quoted in the same way are the same, and no line of a quoted text ends early.
-/

namespace RegexScan.Text

/-! ## Hexadecimal numerals -/

def hexDigit (c : Char) : Nat := if c.isDigit then c.toNat - '0'.toNat else c.toNat - 'a'.toNat + 10

def hexValue (cs : List Char) : Nat := cs.foldl (fun n c ↦ 16 * n + hexDigit c) 0

theorem hexDigit_digitChar : ∀ n < 16, hexDigit (Nat.digitChar n) = n := by decide

/-- A number in hexadecimal is read back. -/
theorem hexValue_toDigits (n : Nat) : hexValue (Nat.toDigits 16 n) = n := by
  induction n using Nat.strongRecOn with
  | ind n ih =>
    rw [Nat.toDigits_eq_if (by decide)]
    split
    · next hlt =>
      rw [hexValue, List.foldl_cons, List.foldl_nil, hexDigit_digitChar n hlt]
      exact Nat.zero_add n
    · next hge =>
      have hdiv := ih (n / 16) (Nat.div_lt_self (by omega) (by decide))
      rw [hexValue] at hdiv ⊢
      rw [List.foldl_append, hdiv, List.foldl_cons, List.foldl_nil,
        hexDigit_digitChar _ (Nat.mod_lt n (by decide))]
      exact Nat.div_add_mod n 16

/-- The digits of a numeral are those of the numbers below the base. -/
theorem exists_digitChar_of_mem_toDigits {c : Char} {n : Nat} (h : c ∈ Nat.toDigits 16 n) :
    ∃ d < 16, c = Nat.digitChar d := by
  induction n using Nat.strongRecOn with
  | ind n ih =>
    rw [Nat.toDigits_eq_if (by decide)] at h
    split at h
    · next hlt => exact ⟨n, hlt, List.mem_singleton.mp h⟩
    · next hge =>
      rcases List.mem_append.mp h with h | h
      · exact ih (n / 16) (Nat.div_lt_self (by omega) (by decide)) h
      · exact ⟨n % 16, Nat.mod_lt n (by decide), List.mem_singleton.mp h⟩

/-! ## Reading a character -/

/-- The character that is written by what stands behind a backslash, and what stands behind that. -/
def behindBackslash : List Char → Option (Char × List Char)
  | [] => none
  | '0' :: cs => some ('\x00', cs)
  | 't' :: cs => some ('\t', cs)
  | 'n' :: cs => some ('\n', cs)
  | 'r' :: cs => some ('\r', cs)
  | 'u' :: cs =>
    let digits := cs.tail.takeWhile (· ≠ '\x7d')
    some (.ofNat (hexValue digits), cs.tail.drop (digits.length + 1))
  | c :: cs => some (c, cs)

/-- The first character of a quoted text, and what stands behind it. -/
def unescape : List Char → Option (Char × List Char)
  | [] => none
  | c :: cs => if c = '\\' then behindBackslash cs else some (c, cs)

theorem digitChar_ne : ∀ n < 16, Nat.digitChar n ≠ '\x7d' ∧ Nat.digitChar n ≠ '\n' := by decide

/-- An escaped code point is read back. -/
theorem behindBackslash_hex (c : Char) (rest : List Char) :
    behindBackslash ('u' :: '\x7b' :: Nat.toDigits 16 c.toNat ++ '\x7d' :: rest) =
      some (c, rest) := by
  have hdigits : (Nat.toDigits 16 c.toNat ++ '\x7d' :: rest).takeWhile (· ≠ '\x7d') =
      Nat.toDigits 16 c.toNat := by
    rw [List.takeWhile_append_of_pos, List.takeWhile_cons_of_neg (by decide), List.append_nil]
    intro d hd
    obtain ⟨n, hn, rfl⟩ := exists_digitChar_of_mem_toDigits hd
    exact decide_eq_true (digitChar_ne n hn).1
  rw [List.cons_append, List.cons_append, behindBackslash, List.tail_cons, hdigits,
    hexValue_toDigits, Char.ofNat_toNat, List.drop_length_add_append, List.drop_one, List.tail_cons]

/-- An escaped character is read back, whatever follows it. -/
theorem unescape_escape (c : Char) (rest : List Char) :
    unescape (escape '"' c ++ rest) = some (c, rest) := by
  rw [escape]
  split
  · next h => rcases h with rfl | rfl <;> rfl
  · next hspecial =>
    split
    · next h => subst h; rfl
    split
    · next h => subst h; rfl
    split
    · next h => subst h; rfl
    split
    · next h => subst h; rfl
    split
    · simp only [List.cons_append, List.append_assoc, List.nil_append]
      exact behindBackslash_hex c rest
    · exact if_neg fun hc ↦ hspecial (.inr hc)

/-! ## Reading a text -/

/-- Texts are made of the same pieces if each piece, whatever stands behind it, tells what it is a
piece for. -/
theorem eq_of_flatMap_eq {α : Type} {p : α → Prop} {f : α → List Char} (hne : ∀ a, f a ≠ [])
    (hf : ∀ a b u v, p a → p b → f a ++ u = f b ++ v → a = b ∧ u = v) {as bs : List α}
    (has : ∀ a ∈ as, p a) (hbs : ∀ b ∈ bs, p b) (h : as.flatMap f = bs.flatMap f) : as = bs := by
  induction as generalizing bs with
  | nil =>
    cases bs with
    | nil => rfl
    | cons b bs => exact absurd h.symm (List.append_ne_nil_of_left_ne_nil (hne b) _)
  | cons a as ih =>
    cases bs with
    | nil => exact absurd h (List.append_ne_nil_of_left_ne_nil (hne a) _)
    | cons b bs =>
      rw [List.forall_mem_cons] at has hbs
      obtain ⟨rfl, hrest⟩ := hf a b _ _ has.1 hbs.1 h
      rw [ih has.2 hbs.2 hrest]

theorem escape_ne_nil (c : Char) : escape '"' c ≠ [] := by
  intro h
  have hread := unescape_escape c []
  rw [h] at hread
  cases hread

/-- Escapes can be told from what follows them. -/
theorem escape_append_inj {c d : Char} {cs ds : List Char}
    (h : escape '"' c ++ cs = escape '"' d ++ ds) : c = d ∧ cs = ds := by
  have hread := unescape_escape c cs
  rw [h, unescape_escape] at hread
  cases hread
  exact ⟨rfl, rfl⟩

/-- Texts that are quoted in the same way are the same. -/
theorem quoted_inj {cs ds : List Char} : quoted cs = quoted ds ↔ cs = ds := by
  refine ⟨fun h ↦ ?_, fun h ↦ h ▸ rfl⟩
  refine eq_of_flatMap_eq (p := fun _ ↦ True) escape_ne_nil (fun _ _ _ _ _ _ ↦ escape_append_inj)
    (fun _ _ ↦ trivial) (fun _ _ ↦ trivial) ?_
  exact List.append_cancel_right (List.cons.inj h).2

/-! ## Lines -/

/-- An escape has no line break. -/
theorem newline_not_mem_escape (c : Char) : '\n' ∉ escape '"' c := by
  rw [escape]
  split
  · next h => rcases h with rfl | rfl <;> decide
  split
  · decide
  split
  · decide
  split
  · decide
  split
  · decide
  split
  · intro h
    have hdigit : '\n' ∈ Nat.toDigits 16 c.toNat := by simpa using h
    obtain ⟨n, hn, heq⟩ := exists_digitChar_of_mem_toDigits hdigit
    exact (digitChar_ne n hn).2 heq.symm
  · next h _ _ =>
    intro hmem
    exact h (List.mem_singleton.mp hmem).symm

theorem newline_not_mem_quoted (cs : List Char) : '\n' ∉ quoted cs := by
  intro h
  rcases List.mem_append.mp h with h | h
  · rcases List.mem_cons.mp h with h | h
    · cases h
    · obtain ⟨c, -, hc⟩ := List.mem_flatMap.mp h
      exact newline_not_mem_escape c hc
  · cases List.mem_singleton.mp h

end RegexScan.Text
