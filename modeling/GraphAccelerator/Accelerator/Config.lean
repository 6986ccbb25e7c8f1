import GraphAccelerator.Library.Loop
import GraphAccelerator.Library.TextStream

/-!
# The configuration file

`cfgBfsParam` reads words until the end of the file, and a number behind each word that
is the name of a parameter.  It only looks at the eof bit: behind an invalid number with
text left, the stream fails for ever and never comes to its end.
-/

namespace GraphAccelerator

open CheckedLoop TextStream

variable {Floating : Type}

inductive CfgKey where
  | alpha
  | beta
  | cacheThreshold
  | hubVertexThreshold
  | startNum
  | logon
  deriving DecidableEq, Repr

namespace CfgKey

def name : CfgKey → List Char
  | alpha => ['a', 'l', 'p', 'h', 'a']
  | beta => ['b', 'e', 't', 'a']
  | cacheThreshold => ['c', 'a', 'c', 'h', 'e', 'T', 'h', 'r', 'e', 's', 'h', 'o', 'l', 'd']
  | hubVertexThreshold =>
      ['h', 'u', 'b', 'V', 'e', 'r', 't', 'e', 'x', 'T', 'h', 'r', 'e', 's', 'h', 'o', 'l', 'd']
  | startNum => ['s', 't', 'a', 'r', 't', 'N', 'u', 'm']
  | logon => ['l', 'o', 'g', 'o', 'n']

/-- `alpha` is a `float`, and the others are `int`. -/
abbrev Value (Floating : Type) : CfgKey → Type
  | alpha => Floating
  | _ => Int

end CfgKey

structure BfsParam (Floating : Type) where
  alpha : Floating
  beta : Int := 5000
  cacheThreshold : Int := 0
  hubVertexThreshold : Int := 0
  startNum : Int := 10
  logon : Int := 0
  deriving DecidableEq, Repr

section Source

variable (strtof : List Char → Floating × Bool)

/-- One iteration of the key loop. -/
def cfgStep (state : Stream × BfsParam Floating) : Stream × BfsParam Floating :=
  let (fhandle, gl) := state
  let (cfgKey, fhandle) := fhandle.readWord
  if cfgKey = CfgKey.alpha.name then
    let (alpha, fhandle) := fhandle.readFloat strtof gl.alpha
    (fhandle, { gl with alpha })
  else if cfgKey = CfgKey.beta.name then
    let (beta, fhandle) := fhandle.readInt gl.beta
    (fhandle, { gl with beta })
  else if cfgKey = CfgKey.cacheThreshold.name then
    let (cacheThreshold, fhandle) := fhandle.readInt gl.cacheThreshold
    (fhandle, { gl with cacheThreshold })
  else if cfgKey = CfgKey.hubVertexThreshold.name then
    let (hubVertexThreshold, fhandle) := fhandle.readInt gl.hubVertexThreshold
    (fhandle, { gl with hubVertexThreshold })
  else if cfgKey = CfgKey.startNum.name then
    let (startNum, fhandle) := fhandle.readInt gl.startNum
    (fhandle, { gl with startNum })
  else if cfgKey = CfgKey.logon.name then
    let (logon, fhandle) := fhandle.readInt gl.logon
    (fhandle, { gl with logon })
  else (fhandle, gl)

/-- The key loop, for a number of iterations. -/
def cfgLoop (rounds : Nat) (state : Stream × BfsParam Floating) : Option (Stream × BfsParam Floating) :=
  whileDo (fun state => !state.1.eof) (fun state => some (cfgStep strtof state)) rounds state

/-- `cfgBfsParam` on a file that could be opened. -/
def cfgBfsParam (rounds : Nat) (text : List Char) (gl : BfsParam Floating) : Option (BfsParam Floating) :=
  (cfgLoop strtof rounds ({ text }, gl)).map (·.2)

end Source

/-! ### What a configuration file says -/

namespace CfgKey

def ofWord (word : List Char) : Option CfgKey :=
  if word = alpha.name then some alpha
  else if word = beta.name then some beta
  else if word = cacheThreshold.name then some cacheThreshold
  else if word = hubVertexThreshold.name then some hubVertexThreshold
  else if word = startNum.name then some startNum
  else if word = logon.name then some logon
  else none

def accept (strtof : List Char → Floating × Bool) :
    (key : CfgKey) → List Char → key.Value Floating × Bool × List Char
  | alpha => acceptFloat strtof
  | beta => acceptInt
  | cacheThreshold => acceptInt
  | hubVertexThreshold => acceptInt
  | startNum => acceptInt
  | logon => acceptInt

end CfgKey

namespace BfsParam

def get (gl : BfsParam Floating) : (key : CfgKey) → key.Value Floating
  | .alpha => gl.alpha
  | .beta => gl.beta
  | .cacheThreshold => gl.cacheThreshold
  | .hubVertexThreshold => gl.hubVertexThreshold
  | .startNum => gl.startNum
  | .logon => gl.logon

def set (gl : BfsParam Floating) : (key : CfgKey) → key.Value Floating → BfsParam Floating
  | .alpha, alpha => { gl with alpha }
  | .beta, beta => { gl with beta }
  | .cacheThreshold, cacheThreshold => { gl with cacheThreshold }
  | .hubVertexThreshold, hubVertexThreshold => { gl with hubVertexThreshold }
  | .startNum, startNum => { gl with startNum }
  | .logon, logon => { gl with logon }

end BfsParam

/-- A file is a list of words, parameters with their values, and at its end possibly a
parameter without a valid value, with text left behind it or not. -/
inductive CfgEntry (Floating : Type) where
  | unknown (word : List Char)
  | setting (key : CfgKey) (value : key.Value Floating)
  | broken (key : CfgKey) (textLeft : Bool)

namespace CfgEntry

def Valid : CfgEntry Floating → Prop
  | broken .. => False
  | _ => True

def Stuck : CfgEntry Floating → Prop
  | broken _ true => True
  | _ => False

def valueOf (key : CfgKey) : CfgEntry Floating → Option (key.Value Floating)
  | setting other value => if same : other = key then some (same ▸ value) else none
  | _ => none

def apply (gl : BfsParam Floating) : CfgEntry Floating → BfsParam Floating
  | setting key value => gl.set key value
  | _ => gl

end CfgEntry

/-- The entries from a position of the stream on; every entry takes some of the text. -/
def entriesFrom (strtof : List Char → Floating × Bool) : Nat → Stream → List (CfgEntry Floating)
  | 0, _ => []
  | rounds + 1, s =>
      let (word, s) := s.readWord
      if s.fail then []
      else match CfgKey.ofWord word with
        | none => .unknown word :: entriesFrom strtof rounds s
        | some key =>
            match s.parse (key.accept strtof) with
            | (some value, s) => .setting key value :: entriesFrom strtof rounds s
            | (none, s) => [.broken key (!s.eof)]

def cfgEntries (strtof : List Char → Floating × Bool) (text : List Char) : List (CfgEntry Floating) :=
  entriesFrom strtof (text.length + 1) { text }

def lastValue (gl : BfsParam Floating) (key : CfgKey) (entries : List (CfgEntry Floating)) :
    key.Value Floating :=
  ((entries.filterMap (·.valueOf key)).getLast?).getD (gl.get key)

section Entries

variable (strtof : List Char → Floating × Bool)

theorem get_set (gl : BfsParam Floating) (key other : CfgKey) (value : key.Value Floating) :
    (gl.set key value).get other = if same : key = other then same ▸ value else gl.get other := by
  cases key <;> cases other <;> rfl

theorem apply_get (gl : BfsParam Floating) (key : CfgKey) (entry : CfgEntry Floating) :
    (CfgEntry.apply gl entry).get key = (entry.valueOf key).getD (gl.get key) := by
  cases entry with
  | unknown word => rfl
  | broken other textLeft => rfl
  | setting other value =>
      simp only [CfgEntry.apply, CfgEntry.valueOf, get_set]
      split <;> rfl

theorem foldl_apply_get (gl : BfsParam Floating) (key : CfgKey) (entries : List (CfgEntry Floating)) :
    (entries.foldl CfgEntry.apply gl).get key = lastValue gl key entries := by
  induction entries generalizing gl with
  | nil => rfl
  | cons entry entries inductionHypothesis =>
      rw [List.foldl_cons, inductionHypothesis, lastValue, lastValue, apply_get]
      cases value : entry.valueOf key with
      | none => rw [List.filterMap_cons_none value, Option.getD_none]
      | some value' => rw [List.filterMap_cons_some value, List.getLast?_cons, Option.getD_some,
          Option.getD_some]

theorem cfgStep_eq (s : Stream) (gl : BfsParam Floating) :
    cfgStep strtof (s, gl) = match CfgKey.ofWord s.readWord.1 with
      | none => (s.readWord.2, gl)
      | some key =>
          ((s.readWord.2.extract (key.accept strtof) (gl.get key)).2,
            gl.set key (s.readWord.2.extract (key.accept strtof) (gl.get key)).1) := by
  simp only [cfgStep, CfgKey.ofWord]
  split_ifs <;> rfl

end Entries

section Loop

variable {strtof : List Char → Floating × Bool} {s next : Stream} {gl : BfsParam Floating}
variable {entry : CfgEntry Floating} {entries : List (CfgEntry Floating)}

theorem cfgLoop_eof (ended : s.eof = true) (rounds : Nat) :
    cfgLoop strtof (rounds + 1) (s, gl) = some (s, gl) := by
  rw [cfgLoop, whileDo]
  simp [ended]

theorem cfgLoop_step (textLeft : s.eof = false) (rounds : Nat) :
    cfgLoop strtof (rounds + 1) (s, gl) = cfgLoop strtof rounds (cfgStep strtof (s, gl)) := by
  rw [cfgLoop, whileDo]
  simp [textLeft, cfgLoop]

/-- A stream that has failed before its end is read for ever. -/
theorem cfgLoop_stuck (failed : s.fail = true) (textLeft : s.eof = false) (rounds : Nat) :
    cfgLoop strtof rounds (s, gl) = none := by
  have same : cfgStep strtof (s, gl) = (s, gl) := by
    have word : s.readWord = ([], s) := Stream.extract_of_fail failed []
    rw [cfgStep_eq, word]
    rfl
  induction rounds with
  | zero => rfl
  | succ rounds inductionHypothesis => rw [cfgLoop_step textLeft, same, inductionHypothesis]

structure Outcome (strtof : List Char → Floating × Bool) (s : Stream) (gl : BfsParam Floating)
    (entries : List (CfgEntry Floating)) : Prop where
  loops : (∃ entry ∈ entries, entry.Stuck) → ∀ rounds, cfgLoop strtof rounds (s, gl) = none
  ends : (∀ entry ∈ entries, ¬ entry.Stuck) → ∃ final rounds,
    cfgLoop strtof rounds (s, gl) = some final ∧
      ((∀ entry ∈ entries, entry.Valid) → final.2 = entries.foldl CfgEntry.apply gl)

theorem Outcome.cons (textLeft : s.eof = false) (valid : entry.Valid)
    (stepped : cfgStep strtof (s, gl) = (next, CfgEntry.apply gl entry))
    (rest : Outcome strtof next (CfgEntry.apply gl entry) entries) :
    Outcome strtof s gl (entry :: entries) where
  loops := by
    rintro ⟨other, membership, stuck⟩ rounds
    have later : other ∈ entries := by
      rcases List.mem_cons.mp membership with rfl | later
      · cases other with
        | broken => exact valid.elim
        | _ => exact stuck.elim
      · exact later
    cases rounds with
    | zero => rfl
    | succ rounds => rw [cfgLoop_step textLeft, stepped, rest.loops ⟨other, later, stuck⟩]
  ends := by
    intro free
    obtain ⟨final, rounds, ran, values⟩ := rest.ends fun other later =>
      free other (List.mem_cons_of_mem _ later)
    refine ⟨final, rounds + 1, by rw [cfgLoop_step textLeft, stepped, ran], fun all => ?_⟩
    exact values fun other later => all other (List.mem_cons_of_mem _ later)

theorem Outcome.last (textLeft : s.eof = false) (stepped : (cfgStep strtof (s, gl)).1.eof = true)
    (kept : (∀ entry ∈ entries, entry.Valid) →
      (cfgStep strtof (s, gl)).2 = entries.foldl CfgEntry.apply gl)
    (free : ∀ entry ∈ entries, ¬ entry.Stuck) : Outcome strtof s gl entries where
  loops := by
    rintro ⟨entry, membership, stuck⟩
    exact absurd stuck (free entry membership)
  ends _ := ⟨_, 2, by rw [cfgLoop_step textLeft]; exact cfgLoop_eof stepped 0, kept⟩

theorem accept_length_le (strtof : List Char → Floating × Bool) (key : CfgKey)
    (text : List Char) : (key.accept strtof text).2.2.length ≤ text.length := by
  cases key with
  | alpha => exact Stream.splitFloat_length_le text false false false true
  | _ => exact Stream.acceptInt_length_le text

theorem outcome_entries {rounds : Nat} (enough : s.text.length < rounds)
    (alive : s.fail = false) : Outcome strtof s gl (entriesFrom strtof rounds s) := by
  induction rounds generalizing s gl with
  | zero => omega
  | succ rounds inductionHypothesis =>
      simp only [entriesFrom]
      cases ended : s.eof with
      | true =>
          have word : s.readWord.2.fail = true := by
            rw [Stream.readWord, Stream.extract_of_eof ended]
          rw [if_pos word]
          exact ⟨by simp, fun _ => ⟨_, 1, cfgLoop_eof ended 0, fun _ => rfl⟩⟩
      | false =>
          cases failed : s.readWord.2.fail with
          | true =>
              have blank := Stream.readWord_of_fail ⟨alive, ended⟩ failed
              have stepped : cfgStep strtof (s, gl) =
                  ({ text := [], fail := true, eof := true }, gl) := by
                rw [cfgStep_eq, blank]
                rfl
              rw [if_pos rfl]
              exact .last ended (by rw [stepped]) (fun _ => by rw [stepped]; rfl) (by simp)
          | false =>
              rw [if_neg (by simp)]
              have shorter := Stream.readWord_shortens failed
              cases known : CfgKey.ofWord s.readWord.1 with
              | none =>
                  refine .cons ended trivial ?_ (inductionHypothesis (by omega) failed)
                  rw [cfgStep_eq, known]
                  rfl
              | some key =>
                  have stepped := cfgStep_eq strtof s gl
                  have consumed := @Stream.extract_length_le _ _ s.readWord.2 (gl.get key)
                    (accept_length_le strtof key)
                  simp only [known] at stepped
                  simp only [Stream.parse_eq (key.accept strtof) s.readWord.2 (gl.get key)]
                  cases invalid : (s.readWord.2.extract (key.accept strtof) (gl.get key)).2.fail with
                  | false =>
                      simp only [Bool.false_eq_true, if_false]
                      exact .cons ended trivial stepped (inductionHypothesis (by omega) invalid)
                  | true =>
                      simp only [if_true]
                      cases textLeft :
                          (s.readWord.2.extract (key.accept strtof) (gl.get key)).2.eof with
                      | true =>
                          refine .last ended (by rw [stepped, textLeft]) (fun all => ?_)
                            (by simp [CfgEntry.Stuck])
                          exact (all _ List.mem_cons_self).elim
                      | false =>
                          refine ⟨fun _ rounds => ?_, fun free => ?_⟩
                          · cases rounds with
                            | zero => rfl
                            | succ rounds =>
                                rw [cfgLoop_step ended, stepped, cfgLoop_stuck invalid textLeft]
                          · exact (free _ List.mem_cons_self trivial).elim

/-- The key loop comes to its end, and leaves the last values if all values are valid,
exactly when no parameter is followed by an invalid value with text left behind it. -/
theorem cfgBfsParam_iff (strtof : List Char → Floating × Bool) (text : List Char)
    (gl : BfsParam Floating) :
    ((∃ rounds final, cfgBfsParam strtof rounds text gl = some final) ∧
      ((∀ entry ∈ cfgEntries strtof text, entry.Valid) →
        ∀ rounds final, cfgBfsParam strtof rounds text gl = some final →
          ∀ key, final.get key = lastValue gl key (cfgEntries strtof text))) ↔
      ∀ entry ∈ cfgEntries strtof text, ¬ entry.Stuck := by
  have outcome : Outcome strtof { text } gl (cfgEntries strtof text) :=
    outcome_entries (Nat.lt_succ_self _) rfl
  constructor
  · rintro ⟨⟨rounds, final, ran⟩, _⟩ entry membership stuck
    rw [cfgBfsParam, outcome.loops ⟨entry, membership, stuck⟩ rounds] at ran
    cases ran
  · intro free
    obtain ⟨last, rounds, ran, values⟩ := outcome.ends free
    refine ⟨⟨rounds, last.2, by rw [cfgBfsParam, ran, Option.map_some]⟩, ?_⟩
    intro valid more final ranMore key
    obtain ⟨other, ranOther, rfl⟩ := Option.map_eq_some_iff.mp ranMore
    have first := whileDo_mono ran (Nat.le_max_left rounds more)
    have second := whileDo_mono ranOther (Nat.le_max_right rounds more)
    rw [Option.some.inj (second.symm.trans first), values valid, foldl_apply_get]

theorem cfgBfsParam_loops : ¬ ∃ rounds final,
    cfgBfsParam (fun _ => ((0 : Int), true)) rounds
      ['s', 't', 'a', 'r', 't', 'N', 'u', 'm', ' ', 'x', '\n'] ⟨0, 5000, 0, 0, 10, 0⟩ =
      some final := by
  rintro ⟨rounds, final, ran⟩
  have step : cfgStep (fun _ => ((0 : Int), true))
      ({ text := ['s', 't', 'a', 'r', 't', 'N', 'u', 'm', ' ', 'x', '\n'] },
        ⟨0, 5000, 0, 0, 10, 0⟩) =
        ({ text := ['x', '\n'], fail := true }, ⟨0, 5000, 0, 0, 0, 0⟩) := by decide
  cases rounds with
  | zero => cases ran
  | succ rounds =>
      rw [cfgBfsParam, cfgLoop_step rfl, step, cfgLoop_stuck rfl rfl] at ran
      cases ran

end Loop

end GraphAccelerator
