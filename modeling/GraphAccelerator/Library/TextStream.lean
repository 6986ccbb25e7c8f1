import Mathlib.Algebra.Ring.Int.Defs
import Mathlib.Tactic.Common
import Mathlib.Data.List.Basic

/-!
# Formatted input

An input stream is the text that is left with its fail and its eof bit.  Every formatted
extraction skips white space first, fails without consuming anything on a stream that is
not good, and sets the eof bit when it meets the end of the text.
-/

namespace TextStream

universe u

def isspace (c : Char) : Bool := c.toNat == 32 || (9 ≤ c.toNat && c.toNat ≤ 13)

structure Stream where
  text : List Char
  fail : Bool := false
  eof : Bool := false
  deriving DecidableEq, Repr

namespace Stream

variable {Value : Type u}

def Good (s : Stream) : Prop := s.fail = false ∧ s.eof = false

def sentry (s : Stream) : Stream :=
  if s.fail || s.eof then { s with fail := true }
  else match s.text.dropWhile isspace with
    | [] => { text := [], fail := true, eof := true }
    | text => { s with text }

/-- An extraction that finds its value by `accept`, which returns what is to be stored,
whether it is invalid, and the text behind it. -/
def extract (accept : List Char → Value × Bool × List Char) (s : Stream) (old : Value) :
    Value × Stream :=
  let s := s.sentry
  if s.fail then (old, s)
  else
    let (value, invalid, text) := accept s.text
    (value, { text, fail := invalid, eof := text.isEmpty })

def parse (accept : List Char → Value × Bool × List Char) (s : Stream) : Option Value × Stream :=
  s.extract (fun text =>
    (if (accept text).2.1 then none else some (accept text).1, (accept text).2)) none

end Stream

/-! ### Words and numbers -/

def acceptWord (text : List Char) : List Char × Bool × List Char :=
  (text.takeWhile (!isspace ·), false, text.dropWhile (!isspace ·))

def number (digits : List Char) : Nat :=
  digits.foldl (fun n c => 10 * n + (c.toNat - 48)) 0

def acceptSign : List Char → Bool × List Char
  | '-' :: text => (true, text)
  | '+' :: text => (false, text)
  | text => (false, text)

/-- What an `int` stores of a number, the bound that it exceeds if it is out of range, and
whether it is. -/
def storeInt (value : Int) : Int × Bool :=
  if value < -2 ^ 31 then (-2 ^ 31, true)
  else if value ≥ 2 ^ 31 then (2 ^ 31 - 1, true)
  else (value, false)

def acceptInt (text : List Char) : Int × Bool × List Char :=
  let (negative, body) := acceptSign text
  let digits := body.takeWhile Char.isDigit
  let text := body.dropWhile Char.isDigit
  if digits.isEmpty then (0, true, text)
  else
    let (value, invalid) := storeInt (if negative then -number digits else number digits)
    (value, invalid, text)

/-- The longest text that looks like a floating point number, and what follows it.  The
flags say whether there was a digit, a point, an exponent, and whether a sign may
follow. -/
def splitFloat (mantissa point exponent sign : Bool) : List Char → List Char × List Char
  | [] => ([], [])
  | c :: text =>
      if c.isDigit then
        let (taken, text) := splitFloat true point exponent false text
        (c :: taken, text)
      else if c = '.' ∧ point = false ∧ exponent = false then
        let (taken, text) := splitFloat mantissa true exponent false text
        (c :: taken, text)
      else if (c = 'e' ∨ c = 'E') ∧ exponent = false ∧ mantissa = true then
        let (taken, text) := splitFloat mantissa point true true text
        (c :: taken, text)
      else if (c = '+' ∨ c = '-') ∧ sign = true then
        let (taken, text) := splitFloat mantissa point exponent false text
        (c :: taken, text)
      else ([], c :: text)

/-- A floating point number; `strtof` returns the number to store and whether the text is
invalid. -/
def acceptFloat {Floating : Type u} (strtof : List Char → Floating × Bool) (text : List Char) :
    Floating × Bool × List Char :=
  let (taken, text) := splitFloat false false false true text
  let (value, invalid) := strtof taken
  (value, invalid, text)

namespace Stream

def readWord (s : Stream) : List Char × Stream := s.extract acceptWord []

def readInt (s : Stream) (old : Int) : Int × Stream := s.extract acceptInt old

def readFloat {Floating : Type u} (strtof : List Char → Floating × Bool) (s : Stream) (old : Floating) :
    Floating × Stream := s.extract (acceptFloat strtof) old

def getline (s : Stream) : List Char × Stream :=
  if s.fail || s.eof then ([], { s with fail := true })
  else if s.text.isEmpty then ([], { text := [], fail := true, eof := true })
  else
    let line := s.text.takeWhile (· != '\n')
    match s.text.dropWhile (· != '\n') with
    | [] => (line, { text := [], eof := true })
    | _ :: text => (line, { text })

/-- Reads values until an extraction fails; `none` when the rounds are used up. -/
def readAll {Value : Type} (read : Stream → Value × Stream) : Nat → Stream → Option (List Value)
  | 0, _ => none
  | rounds + 1, s =>
      let (value, s) := read s
      if s.fail then some [] else (readAll read rounds s).map (value :: ·)

/-! ### What an extraction consumes -/

section Extract

variable {Value : Type u} {accept : List Char → Value × Bool × List Char}

theorem extract_of_fail {s : Stream} (failed : s.fail = true) (old : Value) :
    s.extract accept old = (old, s) := by
  obtain ⟨text, fail, eof⟩ := s
  obtain rfl : fail = true := failed
  simp [extract, sentry]

theorem extract_of_eof {s : Stream} (ended : s.eof = true) (old : Value) :
    s.extract accept old = (old, { s with fail := true }) := by
  simp [extract, sentry, ended]

theorem extract_of_blank {s : Stream} (good : s.Good) (blank : s.text.dropWhile isspace = [])
    (old : Value) : s.extract accept old = (old, { text := [], fail := true, eof := true }) := by
  simp [extract, sentry, good.1, good.2, blank]

theorem extract_of_text {s : Stream} (good : s.Good) (present : s.text.dropWhile isspace ≠ [])
    (old : Value) : s.extract accept old = ((accept (s.text.dropWhile isspace)).1,
      { text := (accept (s.text.dropWhile isspace)).2.2
        fail := (accept (s.text.dropWhile isspace)).2.1
        eof := (accept (s.text.dropWhile isspace)).2.2.isEmpty }) := by
  have kept : s.sentry = { s with text := s.text.dropWhile isspace } := by
    obtain ⟨c, text, starts⟩ := List.exists_cons_of_ne_nil present
    simp [sentry, good.1, good.2, starts]
  simp [extract, kept, good.1]

theorem extract_succeeds {s : Stream} {old : Value}
    (succeeds : (s.extract accept old).2.fail = false) :
    s.Good ∧ s.text.dropWhile isspace ≠ [] ∧ (accept (s.text.dropWhile isspace)).2.1 = false := by
  cases failed : s.fail with
  | true => rw [extract_of_fail failed, failed] at succeeds; cases succeeds
  | false =>
      cases ended : s.eof with
      | true => rw [extract_of_eof ended] at succeeds; cases succeeds
      | false =>
          have good : s.Good := ⟨failed, ended⟩
          by_cases blank : s.text.dropWhile isspace = []
          · rw [extract_of_blank good blank] at succeeds
            cases succeeds
          · rw [extract_of_text good blank] at succeeds
            exact ⟨good, blank, succeeds⟩

/-- `parse` tells the value of an extraction from its failure. -/
theorem parse_eq (accept : List Char → Value × Bool × List Char) (s : Stream) (old : Value) :
    s.parse accept = (if (s.extract accept old).2.fail then none else some (s.extract accept old).1,
      (s.extract accept old).2) := by
  cases failed : s.fail with
  | true => simp [parse, extract_of_fail failed, failed]
  | false =>
      cases ended : s.eof with
      | true => simp [parse, extract_of_eof ended]
      | false =>
          have good : s.Good := ⟨failed, ended⟩
          by_cases blank : s.text.dropWhile isspace = []
          · simp [parse, extract_of_blank good blank]
          · simp [parse, extract_of_text good blank]

theorem extract_length_le {s : Stream} {old : Value}
    (consumes : ∀ text, (accept text).2.2.length ≤ text.length) :
    (s.extract accept old).2.text.length ≤ s.text.length := by
  cases failed : s.fail with
  | true => exact Nat.le_of_eq (by rw [extract_of_fail failed])
  | false =>
      cases ended : s.eof with
      | true => exact Nat.le_of_eq (by rw [extract_of_eof ended])
      | false =>
          have good : s.Good := ⟨failed, ended⟩
          by_cases blank : s.text.dropWhile isspace = []
          · rw [extract_of_blank good blank]
            exact Nat.zero_le _
          · rw [extract_of_text good blank]
            exact Nat.le_trans (consumes _) (List.dropWhile_suffix _).length_le

theorem extract_shortens {s : Stream} {old : Value} (succeeds : (s.extract accept old).2.fail = false)
    (consumes : ∀ text, (accept text).2.1 = false → text ≠ [] →
      (accept text).2.2.length < text.length) :
    (s.extract accept old).2.text.length < s.text.length := by
  obtain ⟨good, present, valid⟩ := extract_succeeds succeeds
  rw [extract_of_text good present]
  exact Nat.lt_of_lt_of_le (consumes _ valid present) (List.dropWhile_suffix _).length_le

end Extract

theorem acceptSign_suffix (text : List Char) : (acceptSign text).2 <:+ text := by
  unfold acceptSign
  split
  · exact List.suffix_cons ..
  · exact List.suffix_cons ..
  · exact List.suffix_refl _

theorem storeInt_valid {value : Int} (valid : (storeInt value).2 = false) :
    -2 ^ 31 ≤ (storeInt value).1 ∧ (storeInt value).1 < 2 ^ 31 := by
  simp only [storeInt] at valid ⊢
  split at valid
  · cases valid
  · split at valid
    · cases valid
    · rename_i low high
      rw [if_neg low, if_neg high]
      exact ⟨by omega, by omega⟩

theorem acceptInt_of_digits {text : List Char} (valid : (acceptInt text).2.1 = false) :
    (acceptSign text).2.takeWhile Char.isDigit ≠ [] ∧
      ∃ value, (storeInt value).2 = false ∧ acceptInt text =
        ((storeInt value).1, false, (acceptSign text).2.dropWhile Char.isDigit) := by
  simp only [acceptInt] at valid ⊢
  split at valid
  · cases valid
  · rename_i digits
    simp only at valid
    rw [if_neg digits, valid]
    exact ⟨by simpa using digits, _, valid, rfl⟩

theorem acceptInt_valid {text : List Char} (valid : (acceptInt text).2.1 = false) :
    (acceptInt text).2.2.length < text.length ∧
      -2 ^ 31 ≤ (acceptInt text).1 ∧ (acceptInt text).1 < 2 ^ 31 := by
  obtain ⟨digits, value, fits, accepted⟩ := acceptInt_of_digits valid
  rw [accepted]
  refine ⟨?_, storeInt_valid fits⟩
  have split := congrArg List.length
    (@List.takeWhile_append_dropWhile _ Char.isDigit (acceptSign text).2)
  have taken := List.length_pos_iff.mpr digits
  have within := (acceptSign_suffix text).length_le
  rw [List.length_append] at split
  show ((acceptSign text).2.dropWhile Char.isDigit).length < text.length
  omega

theorem acceptInt_length_le (text : List Char) :
    (acceptInt text).2.2.length ≤ text.length := by
  have within := (acceptSign_suffix text).length_le
  have rest := (@List.dropWhile_suffix _ (acceptSign text).2 Char.isDigit).length_le
  simp only [acceptInt]
  split
  · exact Nat.le_trans rest within
  · exact Nat.le_trans rest within

/-- The induction is on the text, for all flags. -/
theorem splitFloat_length_le (text : List Char) (mantissa point exponent sign : Bool) :
    (splitFloat mantissa point exponent sign text).2.length ≤ text.length := by
  induction text generalizing mantissa point exponent sign with
  | nil => exact Nat.le_refl _
  | cons c text inductionHypothesis =>
      simp only [splitFloat]
      split
      · exact Nat.le_trans (inductionHypothesis ..) (Nat.le_succ _)
      · split
        · exact Nat.le_trans (inductionHypothesis ..) (Nat.le_succ _)
        · split
          · exact Nat.le_trans (inductionHypothesis ..) (Nat.le_succ _)
          · split
            · exact Nat.le_trans (inductionHypothesis ..) (Nat.le_succ _)
            · exact Nat.le_refl _

theorem readInt_shortens {s : Stream} {old : Int} (succeeds : (s.readInt old).2.fail = false) :
    (s.readInt old).2.text.length < s.text.length :=
  extract_shortens succeeds fun _ valid _ => (acceptInt_valid valid).1

theorem readInt_range {s : Stream} {old : Int} (succeeds : (s.readInt old).2.fail = false) :
    -2 ^ 31 ≤ (s.readInt old).1 ∧ (s.readInt old).1 < 2 ^ 31 := by
  obtain ⟨good, present, valid⟩ := extract_succeeds succeeds
  rw [readInt, extract_of_text good present]
  exact (acceptInt_valid valid).2

theorem dropWhile_isspace_head {text : List Char} {c : Char} {rest : List Char}
    (starts : text.dropWhile isspace = c :: rest) : isspace c = false := by
  have head := List.head?_dropWhile_not isspace text
  rw [starts] at head
  simpa using head

theorem readWord_shortens {s : Stream} (succeeds : s.readWord.2.fail = false) :
    s.readWord.2.text.length < s.text.length := by
  obtain ⟨good, present, _⟩ := extract_succeeds succeeds
  obtain ⟨c, text, starts⟩ := List.exists_cons_of_ne_nil present
  have within := (@List.dropWhile_suffix _ s.text isspace).length_le
  rw [readWord, extract_of_text good present, starts]
  rw [starts, List.length_cons] at within
  have rest := (@List.dropWhile_suffix _ text (!isspace ·)).length_le
  simp only [acceptWord, List.dropWhile_cons, dropWhile_isspace_head starts, Bool.not_false, if_true]
  omega

theorem readWord_of_fail {s : Stream} (good : s.Good) (failed : s.readWord.2.fail = true) :
    s.readWord = ([], { text := [], fail := true, eof := true }) := by
  by_cases blank : s.text.dropWhile isspace = []
  · exact extract_of_blank good blank []
  · rw [readWord, extract_of_text good blank] at failed
    cases failed

theorem getline_shortens {s : Stream} (succeeds : s.getline.2.fail = false) :
    s.getline.2.text.length < s.text.length := by
  have rest := (@List.dropWhile_suffix _ s.text (· != '\n')).length_le
  simp only [getline] at succeeds ⊢
  split at succeeds
  · cases succeeds
  · split at succeeds
    · cases succeeds
    · rename_i bad empty
      rw [if_neg bad, if_neg empty]
      split at succeeds <;> rename_i ends
      · exact List.length_pos_iff.mpr (by simpa using empty)
      · rw [ends, List.length_cons] at rest
        exact rest

section ReadAll

variable {Value : Type} {read : Stream → Value × Stream}

theorem readAll_total (shortens : ∀ s, (read s).2.fail = false →
    (read s).2.text.length < s.text.length) {rounds : Nat} {s : Stream}
    (enough : s.text.length < rounds) : ∃ values, readAll read rounds s = some values := by
  induction rounds generalizing s with
  | zero => omega
  | succ rounds inductionHypothesis =>
      simp only [readAll]
      cases failed : (read s).2.fail with
      | true => exact ⟨[], by simp⟩
      | false =>
          obtain ⟨values, rest⟩ := @inductionHypothesis (read s).2
            (by have := shortens s failed; omega)
          exact ⟨(read s).1 :: values, by simp [rest]⟩

theorem readAll_forall {valid : Value → Prop}
    (holds : ∀ s, (read s).2.fail = false → valid (read s).1) {rounds : Nat} {s : Stream}
    {values : List Value} (ran : readAll read rounds s = some values) :
    ∀ value ∈ values, valid value := by
  induction rounds generalizing s values with
  | zero => cases ran
  | succ rounds inductionHypothesis =>
      simp only [readAll] at ran
      cases failed : (read s).2.fail with
      | true =>
          obtain rfl : [] = values := by simpa [failed] using ran
          simp
      | false =>
          obtain ⟨rest, ranRest, rfl⟩ : ∃ rest, readAll read rounds (read s).2 = some rest ∧
              (read s).1 :: rest = values := by
            simpa [failed, Option.map_eq_some_iff] using ran
          intro value membership
          rcases List.mem_cons.mp membership with rfl | later
          · exact holds s failed
          · exact inductionHypothesis ranRest value later

end ReadAll

end Stream

end TextStream
