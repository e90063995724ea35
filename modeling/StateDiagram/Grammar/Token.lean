import StateDiagram.Grammar.Flaw
import StateDiagram.Text.Blank

/-!
Tokens of the grammar text format. A quoted token starts with a single or a double quote and runs
to the next one of the same kind; a backslash takes the character after it along, whatever it is.
Anything else runs to the next blank, parenthesis or double quote.
-/
namespace StateDiagram.Grammar

open Text

/-- Quoted tokens keep their quotes and their backslashes. -/
inductive Token where
  | opening
  | closing
  | quoted (text : String)
  | word (text : String)
deriving DecidableEq, Repr

/-- A text that has been read in part: what is left of it, and the number of the line. -/
structure Scanner where
  rest : List Char
  line : Nat := 1

/-- What is found next. -/
inductive Scanner.Next where
  | token (t : Token) (after : Scanner)
  | done (after : Scanner)
  | failed (flaw : Flaw) (after : Scanner)

def newlines (cs : List Char) : Nat :=
  cs.count '\n'

def endsWord (c : Char) : Bool :=
  isBlank c || c == '(' || c == ')' || c == '"'

def putFirst (cs : List Char) : Except Flaw (List Char × List Char) →
    Except Flaw (List Char × List Char)
  | .ok (text, rest) => .ok (cs ++ text, rest)
  | .error flaw => .error flaw

/-- A quoted text up to and with its closing quote, and what follows. -/
def readQuoted (quote : Char) : List Char → Except Flaw (List Char × List Char)
  | [] => .error .openQuote
  | ['\\'] => .error .openEscape
  | '\\' :: c :: cs => putFirst ['\\', c] (readQuoted quote cs)
  | c :: cs => if c = quote then .ok ([c], cs) else putFirst [c] (readQuoted quote cs)

namespace Scanner

def ofText (text : String) : Scanner :=
  { rest := text.toList }

def skipBlanks (s : Scanner) : Scanner where
  rest := s.rest.dropWhile isBlank
  line := s.line + newlines (s.rest.takeWhile isBlank)

/-- The token at the head of a text that starts with no blank. A quoted token that does not end
takes all of the text. -/
def token (line : Nat) : List Char → Next
  | [] => .done ⟨[], line⟩
  | '(' :: cs => .token .opening ⟨cs, line⟩
  | ')' :: cs => .token .closing ⟨cs, line⟩
  | c :: cs =>
    if c = '\'' ∨ c = '"' then
      match readQuoted c cs with
      | .ok (text, rest) =>
        .token (.quoted (String.ofList (c :: text))) ⟨rest, line + newlines text⟩
      | .error flaw => .failed flaw ⟨[], line + newlines cs⟩
    else
      .token (.word (String.ofList (c :: cs.takeWhile fun d => !endsWord d)))
        ⟨cs.dropWhile fun d => !endsWord d, line⟩

def next (s : Scanner) : Next :=
  token s.skipBlanks.line s.skipBlanks.rest

end Scanner

theorem putFirst_eq_ok {cs text rest : List Char} {r : Except Flaw (List Char × List Char)}
    (h : putFirst cs r = .ok (text, rest)) :
    ∃ tail, r = .ok (tail, rest) ∧ text = cs ++ tail := by
  match r, h with
  | .ok (tail, _), h =>
    cases h
    exact ⟨tail, rfl, rfl⟩

/-- A quoted text and what follows it are the text that was read. -/
theorem append_of_readQuoted {quote : Char} {cs text rest : List Char}
    (h : readQuoted quote cs = .ok (text, rest)) : text ++ rest = cs ∧ text ≠ [] := by
  fun_induction readQuoted quote cs generalizing text with
  | case1 => cases h
  | case2 => cases h
  | case3 c cs ih =>
    obtain ⟨tail, hr, rfl⟩ := putFirst_eq_ok h
    simp [(ih hr).1]
  | case4 c cs hc =>
    cases h
    simp
  | case5 c cs _ _ hc ih =>
    obtain ⟨tail, hr, rfl⟩ := putFirst_eq_ok h
    simp [(ih hr).1]

theorem length_dropWhile_le (p : Char → Bool) (cs : List Char) :
    (cs.dropWhile p).length ≤ cs.length :=
  (List.dropWhile_suffix p).length_le

namespace Scanner

theorem length_rest_of_token {line : Nat} {cs : List Char} {t : Token} {s : Scanner}
    (h : token line cs = .token t s) : s.rest.length < cs.length := by
  unfold token at h
  split at h
  · cases h
  · cases h
    simp
  · cases h
    simp
  · split at h
    · split at h
      · rename_i text rest hq
        cases h
        have ha := append_of_readQuoted hq
        show rest.length < _
        rw [← ha.1, List.length_cons, List.length_append]
        omega
      · cases h
    · cases h
      exact Nat.lt_succ_of_le (length_dropWhile_le _ _)

/-- Every token takes at least one character. -/
theorem length_rest_of_next {s s' : Scanner} {t : Token} (h : s.next = .token t s') :
    s'.rest.length < s.rest.length :=
  Nat.lt_of_lt_of_le (length_rest_of_token h) (length_dropWhile_le _ _)

end Scanner

/-- A whole text cut into tokens, each with the line on which it ends. -/
inductive Tokens where
  | done (line : Nat)
  | failed (flaw : Flaw) (line : Nat)
  | token (t : Token) (line : Nat) (rest : Tokens)
deriving Repr

namespace Tokens

def scan (s : Scanner) : Tokens :=
  match _h : s.next with
  | .done s' => .done s'.line
  | .failed flaw s' => .failed flaw s'.line
  | .token t s' => .token t s'.line (scan s')
termination_by s.rest.length
decreasing_by exact Scanner.length_rest_of_next _h

def ofText (text : String) : Tokens :=
  scan (.ofText text)

def size : Tokens → Nat
  | .done _ => 0
  | .failed _ _ => 0
  | .token _ _ rest => rest.size + 1

def toList : Tokens → List (Token × Nat)
  | .done _ => []
  | .failed _ _ => []
  | .token t line rest => (t, line) :: rest.toList

def lastLine : Tokens → Nat
  | .done line => line
  | .failed _ line => line
  | .token _ _ rest => rest.lastLine

def flaw? : Tokens → Option Flaw
  | .done _ => none
  | .failed flaw _ => some flaw
  | .token _ _ rest => rest.flaw?

end Tokens

end StateDiagram.Grammar
