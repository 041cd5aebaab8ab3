import BestFit.Json.Numeral
import BestFit.Json.Quoted

/-! The tokens of a JSON text. -/
namespace BestFit.Json

/-- A token. The value of a number is not kept: no reader here asks for one. -/
inductive Token where
  | openBrace | closeBrace | openBracket | closeBracket | colon | comma
  | null
  | bool (b : Bool)
  | number
  | text (s : List Char)
  /-- Stands where no token can be read, and ends the text. -/
  | junk
deriving DecidableEq, Repr

/-- What may stand between tokens. -/
def isSpace (c : Char) : Bool := c = ' ' || c = '\t' || c = '\n' || c = '\r'

/-- What follows a given word, if the text starts with it. -/
def afterWord? : (word : List Char) → List Char → Option (List Char)
  | [], cs => some cs
  | w :: ws, c :: cs => if w = c then afterWord? ws cs else none
  | _ :: _, [] => none

/-- A number token. A number too large for the wide binary format is none. -/
def number? (cs : List Char) : Option (List Char) :=
  match numeral? cs with
  | some (n, rest) => if n.overflows then none else some rest
  | none => none

/-- Reads the token that starts with `c`, and gives what follows it. -/
def token? (c : Char) (cs : List Char) : Option (Token × List Char) :=
  match c with
  | '{' => some (.openBrace, cs)
  | '}' => some (.closeBrace, cs)
  | '[' => some (.openBracket, cs)
  | ']' => some (.closeBracket, cs)
  | ':' => some (.colon, cs)
  | ',' => some (.comma, cs)
  | 'n' => (afterWord? ['u', 'l', 'l'] cs).map fun rest => (.null, rest)
  | 't' => (afterWord? ['r', 'u', 'e'] cs).map fun rest => (.bool true, rest)
  | 'f' => (afterWord? ['a', 'l', 's', 'e'] cs).map fun rest => (.bool false, rest)
  | '\"' => (quoted? cs).map fun (s, rest) => (.text s, rest)
  | _ => (number? (c :: cs)).map fun rest => (.number, rest)

/-! ## Progress -/

theorem length_of_afterWord? {word cs rest : List Char}
    (h : afterWord? word cs = some rest) : rest.length ≤ cs.length := by
  induction word generalizing cs with
  | nil => simp_all [afterWord?]
  | cons w ws ih =>
    cases cs with
    | nil => simp [afterWord?] at h
    | cons c cs =>
      rw [afterWord?] at h
      split at h
      · have := ih h
        simp only [List.length_cons]
        omega
      · cases h

theorem length_of_token? {c : Char} {cs rest : List Char} {t : Token}
    (h : token? c cs = some (t, rest)) : rest.length ≤ cs.length := by
  unfold token? at h
  split at h
  case h_7 | h_8 | h_9 =>
    obtain ⟨r, hr, h⟩ := Option.map_eq_some_iff.mp h
    cases h
    exact length_of_afterWord? hr
  case h_10 =>
    obtain ⟨⟨s, r⟩, hr, h⟩ := Option.map_eq_some_iff.mp h
    cases h
    exact Nat.le_of_lt (length_of_quoted? hr)
  case h_11 =>
    obtain ⟨r, hr, h⟩ := Option.map_eq_some_iff.mp h
    cases h
    unfold number? at hr
    split at hr
    · next hn =>
      have := length_of_numeral? hn
      split at hr
      · cases hr
      · cases hr
        simp only [List.length_cons] at this
        omega
    · cases hr
  all_goals
    cases h
    exact Nat.le_refl _

/-- The tokens of a text, up to the first place where none can be read. -/
def tokens : List Char → List Token
  | [] => []
  | c :: cs =>
      if isSpace c then tokens cs
      else match h : token? c cs with
        | none => [.junk]
        | some (t, rest) =>
            have := length_of_token? h
            t :: tokens rest
termination_by cs => cs.length

end BestFit.Json
