import CodeCensus.Proofs.Recognition
import Mathlib.Data.List.Infix

/-!
# Tokens

A source text whose comments and literals all end is a row of tokens: plain characters, comments,
literals and text blocks. Blanking writes one character for each token. Whether a token ends where
it seems to is a matter of what follows it, so a row is judged from its end to its front.

Of texts that are no such row nothing is said about where comments and literals lie. Whatever they
are, what blanking leaves of them holds no quotes and opens no comments, so there is nothing more to
blank.
-/

namespace CodeCensus.Source

/-- What stands in a literal: a character on its own, or one that a backslash hides. -/
inductive Piece
  | bare (c : Char)
  | escaped (c : Char)
deriving DecidableEq, Repr

namespace Piece

/-- The text of a piece. -/
def text : Piece → List Char
  | .bare c => [c]
  | .escaped c => ['\\', c]

/-- A piece that does not end a literal between two of these quotes, nor the line. -/
def Within (quote : Char) : Piece → Prop
  | .bare c => c ≠ '\\' ∧ c ≠ quote ∧ c ≠ '\n'
  | .escaped _ => True

/-- A piece that is told from the pieces around it. -/
def Apart : Piece → Prop
  | .bare c => c ≠ '\\'
  | .escaped _ => True

instance (quote : Char) : (piece : Piece) → Decidable (piece.Within quote)
  | .bare c => inferInstanceAs (Decidable (c ≠ '\\' ∧ c ≠ quote ∧ c ≠ '\n'))
  | .escaped _ => .isTrue trivial

instance : (piece : Piece) → Decidable piece.Apart
  | .bare c => inferInstanceAs (Decidable (c ≠ '\\'))
  | .escaped _ => .isTrue trivial

end Piece

/-- A plain character, or what is blanked as a whole. -/
inductive Token
  | plain (c : Char)
  | lineComment (body : List Char)
  | blockComment (body : List Char)
  /-- A string or a character. -/
  | literal (quote : Char) (body : List Piece)
  | textBlock (body : List Piece)
deriving DecidableEq, Repr

namespace Token

/-- The text of a token. -/
def text : Token → List Char
  | .plain c => [c]
  | .lineComment body => '/' :: '/' :: (body ++ ['\n'])
  | .blockComment body => '/' :: '*' :: (body ++ ['*', '/'])
  | .literal quote body => quote :: (body.flatMap Piece.text ++ [quote])
  | .textBlock body => '"' :: '"' :: '"' :: (body.flatMap Piece.text ++ ['"', '"', '"'])

/-- What blanking writes for a token. -/
def image : Token → Char
  | .plain c => c
  | .lineComment _ => '\n'
  | .blockComment _ | .literal _ _ | .textBlock _ => ' '

/-- In front of some text, a token opens where it begins and is closed for the first time where it
ends. A slash in front of a slash or a star is not plain, and two quotes in front of a third are no
literal. -/
def Stands (rest : List Char) : Token → Prop
  | .plain c =>
    c ≠ '"' ∧ c ≠ '\'' ∧ (c = '/' → rest.head? ≠ some '/' ∧ rest.head? ≠ some '*')
  | .lineComment body => '\n' ∉ body
  | .blockComment body => ¬['*', '/'] <:+: body ++ ['*']
  | .literal quote body =>
    (quote = '"' ∨ quote = '\'') ∧ (∀ piece ∈ body, piece.Within quote) ∧
      ¬['"', '"', '"'] <+: (Token.literal quote body).text ++ rest
  | .textBlock body =>
    (∀ piece ∈ body, piece.Apart) ∧
      ¬[.bare '"', .bare '"', .bare '"'] <:+: body ++ [.bare '"', .bare '"']

instance (rest : List Char) : (token : Token) → Decidable (token.Stands rest)
  | .plain c => inferInstanceAs (Decidable
    (c ≠ '"' ∧ c ≠ '\'' ∧ (c = '/' → rest.head? ≠ some '/' ∧ rest.head? ≠ some '*')))
  | .lineComment body => inferInstanceAs (Decidable ('\n' ∉ body))
  | .blockComment body => inferInstanceAs (Decidable ¬['*', '/'] <:+: body ++ ['*'])
  | .literal quote body => inferInstanceAs (Decidable
    ((quote = '"' ∨ quote = '\'') ∧ (∀ piece ∈ body, piece.Within quote) ∧
      ¬['"', '"', '"'] <+: (Token.literal quote body).text ++ rest))
  | .textBlock body => inferInstanceAs (Decidable
    ((∀ piece ∈ body, piece.Apart) ∧
      ¬[.bare '"', .bare '"', .bare '"'] <:+: body ++ [.bare '"', .bare '"']))

end Token

/-- Each token stands in front of the texts of those behind it. -/
def Row : List Token → Prop
  | [] => True
  | token :: tokens => token.Stands (tokens.flatMap Token.text) ∧ Row tokens

instance : (tokens : List Token) → Decidable (Row tokens)
  | [] => .isTrue trivial
  | _ :: tokens =>
    have : Decidable (Row tokens) := instDecidableRow tokens
    inferInstanceAs (Decidable (_ ∧ _))

/-- No quotes, and nothing that opens a comment. -/
structure Blanked (text : List Char) : Prop where
  noQuote : '"' ∉ text
  noApostrophe : '\'' ∉ text
  noLineComment : ¬['/', '/'] <:+: text
  noBlockComment : ¬['/', '*'] <:+: text

variable {c quote : Char} {rest text : List Char} {body : List Char} {pieces : List Piece}

/-! ### One token -/

private theorem blankFrom_plain (noQuote : c ≠ '"') (noApostrophe : c ≠ '\'')
    (noComment : c = '/' → rest.head? ≠ some '/' ∧ rest.head? ≠ some '*') :
    blankFrom .code (c :: rest) = c :: blankFrom .code rest := by
  rw [blankFrom]
  · rintro tail rfl rfl
    exact (noComment rfl).1 rfl
  · rintro tail rfl rfl
    exact (noComment rfl).2 rfl
  · intro tail same
    exact absurd same noQuote
  · exact noQuote
  · exact noApostrophe

private theorem blankFrom_lineComment (oneLine : '\n' ∉ body) :
    blankFrom .lineComment (body ++ '\n' :: rest) = blankFrom .code rest := by
  induction body with
  | nil => rfl
  | cons c body inductionHypothesis =>
    rw [List.mem_cons, not_or] at oneLine
    rw [List.cons_append, blankFrom, inductionHypothesis oneLine.2]
    exact Ne.symm oneLine.1

private theorem blankFrom_blockComment (unclosed : ¬['*', '/'] <:+: body ++ ['*']) :
    blankFrom .blockComment (body ++ '*' :: '/' :: rest) = blankFrom .code rest := by
  induction body with
  | nil => rfl
  | cons c body inductionHypothesis =>
    rw [List.cons_append, List.infix_cons_iff, not_or] at unclosed
    rw [List.cons_append, blankFrom, inductionHypothesis unclosed.2]
    rintro tail rfl same
    cases body with
    | nil => cases same
    | cons d body =>
      obtain ⟨rfl, -⟩ := List.cons.inj same
      exact unclosed.1 ⟨body ++ ['*'], rfl⟩

private theorem blankFrom_literal (isQuote : quote = '"' ∨ quote = '\'')
    (within : ∀ piece ∈ pieces, piece.Within quote) :
    blankFrom (.quoted quote) (pieces.flatMap Piece.text ++ quote :: rest) =
      blankFrom .code rest := by
  have notBackslash : quote ≠ '\\' := by rcases isQuote with rfl | rfl <;> decide
  have notNewline : quote ≠ '\n' := by rcases isQuote with rfl | rfl <;> decide
  induction pieces with
  | nil =>
    rw [List.flatMap_nil, List.nil_append, blankFrom, if_pos rfl]
    · exact fun _ _ isBackslash _ => notBackslash isBackslash
    · exact notNewline
  | cons piece pieces inductionHypothesis =>
    rw [List.forall_mem_cons] at within
    have others := inductionHypothesis within.2
    rw [List.flatMap_cons, List.append_assoc]
    cases piece with
    | escaped c => exact others
    | bare c =>
      obtain ⟨notEscape, notQuote, sameLine⟩ := within.1
      rw [Piece.text, List.singleton_append, blankFrom, if_neg notQuote, others]
      · exact fun _ _ isBackslash _ => notEscape isBackslash
      · exact sameLine

/-- The quotes just seen count as if they stood in front of what follows. -/
theorem blankFrom_textBlock {seen : Nat} (few : seen ≤ 2) (apart : ∀ piece ∈ pieces, piece.Apart)
    (unclosed : ¬[Piece.bare '"', .bare '"', .bare '"'] <:+:
      List.replicate seen (.bare '"') ++ (pieces ++ [.bare '"', .bare '"'])) :
    blankFrom (.textBlock seen) (pieces.flatMap Piece.text ++ '"' :: '"' :: '"' :: rest) =
      blankFrom .code rest := by
  induction pieces generalizing seen with
  | nil =>
    have none_seen : seen = 0 := by
      rcases seen with _ | _ | _ | seen
      · rfl
      · exact absurd (List.infix_refl _) unclosed
      · exact absurd ⟨[.bare '"'], [], rfl⟩ unclosed
      · omega
    simp [none_seen, blankFrom]
  | cons piece pieces inductionHypothesis =>
    rw [List.forall_mem_cons] at apart
    rw [List.flatMap_cons, List.append_assoc]
    -- After anything but a quote the count begins anew, and what follows is judged alone.
    have anew : blankFrom (.textBlock 0)
        (pieces.flatMap Piece.text ++ '"' :: '"' :: '"' :: rest) = blankFrom .code rest := by
      refine inductionHypothesis (Nat.zero_le 2) apart.2 fun closed => unclosed ?_
      exact closed.trans ⟨List.replicate seen (.bare '"') ++ [piece], [], by simp⟩
    cases piece with
    | escaped c => exact anew
    | bare c =>
      by_cases isQuote : c = '"'
      · subst isQuote
        have moved : List.replicate seen (Piece.bare '"') ++
              (.bare '"' :: pieces ++ [.bare '"', .bare '"']) =
            List.replicate (seen + 1) (.bare '"') ++ (pieces ++ [.bare '"', .bare '"']) := by
          rw [List.replicate_succ', List.append_assoc]
          rfl
        rw [moved] at unclosed
        have notThird : seen < 2 := by
          by_contra third
          obtain rfl : seen = 2 := by omega
          exact unclosed ⟨[], pieces ++ [.bare '"', .bare '"'], rfl⟩
        have counted := inductionHypothesis (Nat.succ_le_of_lt notThird) apart.2 unclosed
        simp [Piece.text, blankFrom, notThird, counted]
      · have notEscape : c ≠ '\\' := apart.1
        rw [Piece.text, List.singleton_append, blankFrom, anew]
        · exact fun _ _ isBackslash _ => notEscape isBackslash
        · exact isQuote

/-- Blanking writes one character for a token and goes on behind it. -/
theorem Token.Stands.blankFrom {token : Token} (stands : token.Stands rest) :
    blankFrom .code (token.text ++ rest) = token.image :: Source.blankFrom .code rest := by
  cases token with
  | plain c => exact blankFrom_plain stands.1 stands.2.1 stands.2.2
  | lineComment body =>
    have behind : Source.blankFrom .lineComment (body ++ '\n' :: rest) =
        Source.blankFrom .code rest := blankFrom_lineComment stands
    simp [Token.text, Token.image, Source.blankFrom, behind]
  | blockComment body =>
    have behind : Source.blankFrom .blockComment (body ++ '*' :: '/' :: rest) =
        Source.blankFrom .code rest := blankFrom_blockComment stands
    simp [Token.text, Token.image, Source.blankFrom, behind]
  | literal quote body =>
    obtain ⟨isQuote, within, noBlock⟩ := stands
    have behind : Source.blankFrom (.quoted quote) (body.flatMap Piece.text ++ quote :: rest) =
        Source.blankFrom .code rest := blankFrom_literal isQuote within
    rcases isQuote with rfl | rfl
    · have opened : Source.blankFrom .code ('"' :: (body.flatMap Piece.text ++ '"' :: rest)) =
          ' ' :: Source.blankFrom (.quoted '"') (body.flatMap Piece.text ++ '"' :: rest) := by
        rw [Source.blankFrom]
        intro tail same
        exact noBlock ⟨tail, by simp [Token.text, same]⟩
      simp [Token.text, Token.image, opened, behind]
    · simp [Token.text, Token.image, Source.blankFrom, behind]
  | textBlock body =>
    have behind : Source.blankFrom (.textBlock 0)
        (body.flatMap Piece.text ++ '"' :: '"' :: '"' :: rest) = Source.blankFrom .code rest :=
      blankFrom_textBlock (Nat.zero_le 2) stands.1 stands.2
    simp [Token.text, Token.image, Source.blankFrom, behind]

/-- Blanking writes one character for each token of a row. -/
theorem Row.blank {tokens : List Token} (row : Row tokens) :
    blank (tokens.flatMap Token.text) = tokens.map Token.image := by
  induction tokens with
  | nil => rfl
  | cons token tokens inductionHypothesis =>
    calc blankFrom .code (token.text ++ tokens.flatMap Token.text)
        = token.image :: blankFrom .code (tokens.flatMap Token.text) := row.1.blankFrom
      _ = token.image :: tokens.map Token.image := congrArg _ (inductionHypothesis row.2)

/-! ### Any text -/

private theorem not_mem_blankFrom (isQuote : quote = '"' ∨ quote = '\'') (region : Region)
    (text : List Char) : quote ∉ blankFrom region text := by
  have notNewline : quote ≠ '\n' := by rcases isQuote with rfl | rfl <;> decide
  have notSpace : quote ≠ ' ' := by rcases isQuote with rfl | rfl <;> decide
  fun_induction blankFrom region text <;> grind

/-- In code, blanking starts with a slash or a star only where the text does. -/
theorem head?_blankFrom {region : Region} (code : region = .code) (mark : c = '/' ∨ c = '*')
    (head : (blankFrom region text).head? = some c) : text.head? = some c := by
  have notNewline : c ≠ '\n' := by rcases mark with rfl | rfl <;> decide
  have notSpace : c ≠ ' ' := by rcases mark with rfl | rfl <;> decide
  revert head
  fun_cases blankFrom region text <;> grind

private theorem opener_cons {d : Char} : ['/', c] <:+: d :: text ↔
    (d = '/' ∧ text.head? = some c) ∨ ['/', c] <:+: text := by
  have oneMark : [c] <+: text ↔ text.head? = some c := by
    cases text <;> simp [List.cons_prefix_cons, eq_comm]
  rw [List.infix_cons_iff, List.cons_prefix_cons, oneMark, eq_comm (a := '/')]

/-- Blanking leaves nothing that opens a comment: a slash in front of another mark would have opened
one in the text. -/
theorem not_opener_blankFrom (mark : c = '/' ∨ c = '*') (region : Region) (text : List Char) :
    ¬['/', c] <:+: blankFrom region text := by
  fun_induction blankFrom region text with
  | case7 d rest noLine noBlock _ _ _ inductionHypothesis =>
    rw [opener_cons, not_or, not_and]
    refine ⟨fun isSlash head => ?_, inductionHypothesis⟩
    obtain ⟨tail, rfl⟩ := List.head?_eq_some_iff.mp (head?_blankFrom rfl mark head)
    rcases mark with rfl | rfl
    · exact noLine tail isSlash rfl
    · exact noBlock tail isSlash rfl
  | _ => grind [opener_cons]

private theorem blanked_blank (source : List Char) : Blanked (blank source) where
  noQuote := not_mem_blankFrom (.inl rfl) .code source
  noApostrophe := not_mem_blankFrom (.inr rfl) .code source
  noLineComment := not_opener_blankFrom (.inl rfl) .code source
  noBlockComment := not_opener_blankFrom (.inr rfl) .code source

/-- Where there is nothing to blank, blanking changes nothing. -/
theorem Blanked.blank (blanked : Blanked text) : blank text = text := by
  obtain ⟨noQuote, noApostrophe, noLine, noBlock⟩ := blanked
  induction text with
  | nil => rfl
  | cons c text inductionHypothesis =>
    rw [List.mem_cons, not_or] at noQuote noApostrophe
    rw [opener_cons, not_or, not_and] at noLine noBlock
    have opensNothing : c = '/' → text.head? ≠ some '/' ∧ text.head? ≠ some '*' :=
      fun isSlash => ⟨noLine.1 isSlash, noBlock.1 isSlash⟩
    calc blankFrom .code (c :: text)
        = c :: blankFrom .code text :=
          blankFrom_plain (Ne.symm noQuote.1) (Ne.symm noApostrophe.1) opensNothing
      _ = c :: text :=
          congrArg _ (inductionHypothesis noQuote.2 noApostrophe.2 noLine.2 noBlock.2)

/-- Blanking puts one newline for each line comment of a row of tokens, one space for each other
comment, literal and text block, and leaves the plain characters. What it makes of any text holds no
quotes and opens no comments, so that blanking it once more changes nothing. -/
theorem tokens_are_blanked :
    (∀ tokens, Row tokens → blank (tokens.flatMap Token.text) = tokens.map Token.image) ∧
    ∀ source, Blanked (blank source) ∧ blank (blank source) = blank source :=
  ⟨fun _ row => row.blank, fun source => ⟨blanked_blank source, (blanked_blank source).blank⟩⟩

/-- A comment that seems to open twice, an empty string, an escaped quote in a character, a text
block with quotes of its own, a comment with a quote and a slash at the end. -/
theorem close_tokens_are_blanked :
    let tokens : List Token := [.plain 'x', .blockComment ['/', '*'], .literal '"' [], .plain ' ',
      .literal '\'' [.escaped '\''],
      .textBlock [.bare '"', .bare '"', .escaped '"', .bare '\n'], .lineComment ['"'], .plain '/']
    Row tokens ∧
      tokens.flatMap Token.text = "x/*/**/\"\" '\\''\"\"\"\"\"\\\"\n\"\"\"//\"\n/".toList ∧
      blank "x/*/**/\"\" '\\''\"\"\"\"\"\\\"\n\"\"\"//\"\n/".toList = "x     \n/".toList := by
  intro tokens
  have row : Row tokens := by decide
  have text : tokens.flatMap Token.text =
      "x/*/**/\"\" '\\''\"\"\"\"\"\\\"\n\"\"\"//\"\n/".toList := by decide
  refine ⟨row, text, ?_⟩
  rw [← text, tokens_are_blanked.1 tokens row]
  decide

end CodeCensus.Source
