import RegexScan.Proofs.Pattern.Completeness

/-!
# The tokens of a pattern

A backslash takes the character behind it along, and everything else is a token by itself.  So what
the tokens of a pattern are, apart from where they stand, is found from its front.
-/

namespace RegexScan.Pattern

/-- Whether the last character is a backslash that is not escaped itself. -/
def dangles : List Char → Bool
  | [] => false
  | ['\\'] => true
  | '\\' :: _ :: cs => dangles cs
  | _ :: cs => dangles cs

/-- A character other than a backslash does not matter to whether the text behind it dangles. -/
theorem dangles_cons {c : Char} (hc : c ≠ '\\') (p : List Char) :
    dangles (c :: p) = dangles p := by
  rw [dangles]
  · exact fun h _ ↦ hc h
  · exact fun _ _ h _ ↦ hc h

/-- A character other than a backslash is a token by itself. -/
theorem lexFrom_cons {c : Char} (hc : c ≠ '\\') (offset : Nat) (p : List Char) :
    lexFrom offset (c :: p) = ⟨plain c, offset⟩ :: lexFrom (offset + 1) p := by
  rw [lexFrom]
  · exact fun h _ ↦ hc h
  · exact fun _ _ h _ ↦ hc h

/-- From token to token through a pattern. -/
@[elab_as_elim]
theorem escape_induction {motive : List Char → Prop} (nil : motive []) (dangling : motive ['\\'])
    (escape : ∀ c p, motive p → motive ('\\' :: c :: p))
    (plain : ∀ c p, c ≠ '\\' → motive p → motive (c :: p)) (p : List Char) : motive p := by
  induction p using dangles.induct with
  | case1 => exact nil
  | case2 => exact dangling
  | case3 c p ih => exact escape c p ih
  | case4 c p hdangling hescape ih =>
    refine plain c p ?_ ih
    rintro rfl
    cases p with
    | nil => exact hdangling rfl rfl
    | cons d p => exact hescape d p rfl rfl

/-- What the tokens of a pattern are, wherever they stand. -/
def kinds (p : List Char) : List TokenKind := body (lexFrom 0 p)

theorem plain_ne_endOfPattern (c : Char) : plain c ≠ .endOfPattern := by
  unfold plain
  split <;> nofun

theorem escaped_ne_endOfPattern (c : Char) : escaped c ≠ .endOfPattern := by
  unfold escaped
  split <;> nofun

/-- The kinds of the tokens of a pattern, up to the end. -/
theorem body_lexFrom (offset : Nat) (p : List Char) : body (lexFrom offset p) = kinds p := by
  rw [kinds]
  generalize 0 = offset'
  induction p using escape_induction generalizing offset offset' with
  | nil => rfl
  | dangling => rfl
  | escape c p ih =>
    rw [lexFrom, lexFrom, body_cons (escaped_ne_endOfPattern c),
      body_cons (escaped_ne_endOfPattern c), ih]
  | plain c p hc ih =>
    rw [lexFrom_cons hc, lexFrom_cons hc, body_cons (plain_ne_endOfPattern c),
      body_cons (plain_ne_endOfPattern c), ih]

/-- A backslash and a character are one token. -/
theorem kinds_escape (c : Char) (p : List Char) :
    kinds ('\\' :: c :: p) = escaped c :: kinds p := by
  rw [kinds, lexFrom, body_cons (escaped_ne_endOfPattern c), body_lexFrom]

theorem kinds_cons {c : Char} (hc : c ≠ '\\') (p : List Char) :
    kinds (c :: p) = plain c :: kinds p := by
  rw [kinds, lexFrom_cons hc, body_cons (plain_ne_endOfPattern c), body_lexFrom]

/-- A pattern parses to a tree when its tokens derive it. -/
theorem parse_eq_ok_iff {p : String} {r : Regex} :
    parse p = .ok r ↔ IsExpr (kinds p.toList) r := parseTokens_eq_ok_iff

end RegexScan.Pattern
