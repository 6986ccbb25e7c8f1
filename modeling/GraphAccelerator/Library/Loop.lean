import Mathlib.Tactic.Common
import Mathlib.Data.List.Basic

/-!
# Checked loops

Bodies run in `Option`; `none` is a fault, such as an access outside a vector.
A `for` loop is `List.foldlM`, a `for` loop with a `break` is `forBreak`, and the
unbounded loops take a number of rounds and return `none` when it is used up.
The rules below are total: from an invariant they conclude that the loop neither
faults nor runs out of rounds.
-/

namespace CheckedLoop

universe u v

variable {Item : Type u} {State : Type v}

section ForLoops

/-- The rule of a `for` loop.  The invariant speaks about the items already
processed. -/
theorem foldlM_total (body : State → Item → Option State)
    (invariant : List Item → State → Prop) (items : List Item)
    (start : State) (initial : invariant [] start)
    (preserved : ∀ done item rest state, items = done ++ item :: rest →
      invariant done state →
      ∃ next, body state item = some next ∧ invariant (done ++ [item]) next) :
    ∃ final, items.foldlM body start = some final ∧ invariant items final := by
  suffices generalized : ∀ done rest state, items = done ++ rest → invariant done state →
      ∃ final, rest.foldlM body state = some final ∧ invariant items final by
    exact generalized [] items start rfl initial
  intro done rest
  induction rest generalizing done with
  | nil =>
      intro state split holds
      refine ⟨state, rfl, ?_⟩
      rw [List.append_nil] at split
      exact split ▸ holds
  | cons item rest inductionHypothesis =>
      intro state split holds
      obtain ⟨next, stepped, nextHolds⟩ := preserved done item rest state split holds
      obtain ⟨final, finished, finalHolds⟩ :=
        inductionHypothesis (done ++ [item]) next (by simpa using split) nextHolds
      refine ⟨final, ?_, finalHolds⟩
      rw [List.foldlM_cons, stepped]
      exact finished

/-- The partial rule of a `for` loop: an invariant of the iterations that were made
holds at the end of a loop that has come to its end. -/
theorem foldlM_invariant {body : State → Item → Option State}
    (invariant : List Item → State → Prop) {items : List Item} {start final : State}
    (finished : items.foldlM body start = some final) (initial : invariant [] start)
    (preserved : ∀ done item rest state next, items = done ++ item :: rest →
      invariant done state → body state item = some next → invariant (done ++ [item]) next) :
    invariant items final := by
  suffices generalized : ∀ done rest state, items = done ++ rest → invariant done state →
      rest.foldlM body state = some final → invariant items final by
    exact generalized [] items start rfl initial finished
  intro done rest
  induction rest generalizing done with
  | nil =>
      intro state split holds ended
      rw [List.foldlM_nil, Option.pure_def, Option.some.injEq] at ended
      rw [List.append_nil] at split
      rw [← ended, split]
      exact holds
  | cons item rest inductionHypothesis =>
      intro state split holds ended
      rw [List.foldlM_cons, Option.bind_eq_bind, Option.bind_eq_some_iff] at ended
      obtain ⟨next, stepped, ended⟩ := ended
      exact inductionHypothesis (done ++ [item]) next (by simpa using split)
        (preserved done item rest state next split holds stepped) ended

/-- The rule of a loop with a rank: when the rank falls in every iteration until the work is
finished, a loop that is long enough finishes it. -/
theorem foldlM_ranked {body : State → Item → Option State} (invariant finished : State → Prop)
    (rank : State → Nat) (drop : Nat) {items : List Item} {start : State} (initial : invariant start)
    (progress : ∀ item ∈ items, ∀ state, invariant state →
      ∃ next, body state item = some next ∧ invariant next ∧
        (finished state → finished next) ∧
        (¬ finished state → rank next + drop ≤ rank state))
    (enough : rank start < items.length * drop) :
    ∃ final, items.foldlM body start = some final ∧ invariant final ∧ finished final := by
  obtain ⟨final, looped, holds, ended⟩ := foldlM_total body
    (fun done state => invariant state ∧
      (finished state ∨ rank state + done.length * drop ≤ rank start)) items start
    ⟨initial, .inr (by simp)⟩ (by
      rintro done item rest state split ⟨holds, ended⟩
      obtain ⟨next, stepped, kept, stays, falls⟩ := progress item (by simp [split]) state holds
      refine ⟨next, stepped, kept, ?_⟩
      by_cases finishedNow : finished state
      · exact .inl (stays finishedNow)
      · have before := ended.resolve_left finishedNow
        have after := falls finishedNow
        right
        rw [List.length_append, List.length_singleton, Nat.add_mul, Nat.one_mul]
        omega)
  exact ⟨final, looped, holds, ended.resolve_right (by omega)⟩

/-- The rule of a loop over parts of the state: every part is worked on once, in the
iteration of its own, and the other iterations leave it alone. -/
theorem foldlM_each {body : State → Item → Option State} (common : State → Prop)
    (before after : Item → State → Prop) {items : List Item} (nodup : items.Nodup)
    {start final : State} (finished : items.foldlM body start = some final)
    (initialCommon : common start) (initial : ∀ item ∈ items, before item start)
    (own : ∀ item state next, body state item = some next → common state →
      before item state → common next ∧ after item next)
    (others : ∀ item other state next, other ≠ item → body state item = some next →
      before item state → (before other state → before other next) ∧
        (after other state → after other next)) :
    common final ∧ ∀ item ∈ items, after item final := by
  have invariant := foldlM_invariant
    (fun done state => common state ∧ (∀ item ∈ items, item ∉ done → before item state) ∧
      ∀ item ∈ done, after item state)
    finished ⟨initialCommon, fun item membership _ => initial item membership, by simp⟩ (by
      rintro done item rest state next split ⟨holds, waiting, worked⟩ stepped
      have fresh : item ∉ done := by
        rw [split, List.nodup_append] at nodup
        exact fun earlier => nodup.2.2 item earlier item (by simp) rfl
      have ready := waiting item (by simp [split]) fresh
      obtain ⟨nextCommon, nextOwn⟩ := own item state next stepped holds ready
      refine ⟨nextCommon, ?_, ?_⟩
      · intro other membership later
        rw [List.mem_append, not_or, List.mem_singleton] at later
        exact (others item other state next later.2 stepped ready).1
          (waiting other membership later.1)
      · intro other membership
        rcases List.mem_append.mp membership with earlier | same
        · have different : other ≠ item := fun same => fresh (same ▸ earlier)
          exact (others item other state next different stepped ready).2 (worked other earlier)
        · rw [List.mem_singleton.mp same]
          exact nextOwn)
  exact ⟨invariant.1, invariant.2.2⟩

/-- A loop that keeps the better of two items ends with one that it prefers to all.  It
compares an item with later ones only. -/
theorem foldlM_best {better : Item → Item → Option Item} (earlier prefers : Item → Item → Prop)
    (refl : ∀ item, prefers item item)
    (trans : ∀ one two three, prefers one two → prefers two three → prefers one three)
    (decides : ∀ one two chosen, earlier one two → better one two = some chosen →
      (chosen = one ∧ prefers one two) ∨ (chosen = two ∧ prefers two one))
    {head : Item} {rest : List Item} (ordered : (head :: rest).Pairwise earlier)
    {chosen : Item} (finished : rest.foldlM better head = some chosen) :
    chosen ∈ head :: rest ∧ ∀ item ∈ head :: rest, prefers chosen item := by
  induction rest generalizing head with
  | nil =>
      obtain rfl : head = chosen := Option.some.inj finished
      exact ⟨by simp, by simpa using refl head⟩
  | cons next rest inductionHypothesis =>
      rw [List.foldlM_cons, Option.bind_eq_bind, Option.bind_eq_some_iff] at finished
      obtain ⟨kept, compared, finished⟩ := finished
      rw [List.pairwise_cons, List.forall_mem_cons] at ordered
      obtain ⟨⟨first, others⟩, later⟩ := ordered
      have decided := decides head next kept first compared
      have keptOrdered : (kept :: rest).Pairwise earlier := by
        rcases decided with ⟨rfl, _⟩ | ⟨rfl, _⟩
        · exact List.pairwise_cons.mpr ⟨others, (List.pairwise_cons.mp later).2⟩
        · exact later
      obtain ⟨present, best⟩ := inductionHypothesis keptOrdered finished
      rw [List.forall_mem_cons] at best
      rcases decided with ⟨rfl, prefers⟩ | ⟨rfl, prefers⟩
      · refine ⟨by grind, ?_⟩
        simp only [List.forall_mem_cons]
        exact ⟨best.1, trans _ _ _ best.1 prefers, best.2⟩
      · refine ⟨by grind, ?_⟩
        simp only [List.forall_mem_cons]
        exact ⟨trans _ _ _ best.1 prefers, best.1, best.2⟩

theorem mapM_eq_some_map {Value : Type v} (step : Item → Option Value) (value : Item → Value)
    (items : List Item) (succeeds : ∀ item ∈ items, step item = some (value item)) :
    items.mapM step = some (items.map value) := by
  induction items with
  | nil => rfl
  | cons item rest inductionHypothesis =>
      rw [List.mapM_cons, succeeds item (by simp),
        inductionHypothesis fun later membership =>
          succeeds later (List.mem_cons_of_mem _ membership)]
      rfl

theorem mapM_total {Value : Type v} {step : Item → Option Value} :
    ∀ {items : List Item}, (∀ item ∈ items, ∃ value, step item = some value) →
      ∃ values, items.mapM step = some values
  | [], _ => ⟨[], rfl⟩
  | item :: items, succeeds => by
      obtain ⟨value, first⟩ := succeeds item List.mem_cons_self
      obtain ⟨values, others⟩ := mapM_total fun later membership =>
        succeeds later (List.mem_cons_of_mem item membership)
      exact ⟨value :: values, by simp [first, others]⟩

theorem mapM_forall₂ {Value : Type v} {step : Item → Option Value} :
    ∀ {items : List Item} {values : List Value}, items.mapM step = some values →
      List.Forall₂ (fun item value => step item = some value) items values
  | [], values, mapped => by
      obtain rfl : values = [] := (Option.some.inj mapped).symm
      exact .nil
  | item :: items, values, mapped => by
      simp only [List.mapM_cons, Option.bind_eq_bind, Option.bind_eq_some_iff] at mapped
      obtain ⟨value, first, rest, others, same⟩ := mapped
      obtain rfl := Option.some.inj same
      exact .cons first (mapM_forall₂ others)

theorem mapM_getElem? {Value : Type v} {step : Item → Option Value} {items : List Item}
    {values : List Value} (mapped : items.mapM step = some values) (i : Nat) :
    values[i]? = items[i]?.bind step := by
  have pairs := mapM_forall₂ mapped
  clear mapped
  induction pairs generalizing i with
  | nil => rfl
  | cons first _ inductionHypothesis =>
      cases i with
      | zero => exact first.symm
      | succ i => exact inductionHypothesis i

def forBreak (body : State → Item → Option (ForInStep State)) :
    State → List Item → Option State
  | state, [] => some state
  | state, item :: rest =>
      match body state item with
      | none => none
      | some (.done next) => some next
      | some (.yield next) => forBreak body next rest

@[simp]
theorem forBreak_nil (body : State → Item → Option (ForInStep State)) (state : State) :
    forBreak body state [] = some state := rfl

/-- The rule of a `for` loop with a `break`: `invariant` holds as long as no
item has left the loop, and `broken` holds once one has. -/
theorem forBreak_total (body : State → Item → Option (ForInStep State))
    (invariant broken : List Item → State → Prop) (items : List Item)
    (start : State) (initial : invariant [] start)
    (preserved : ∀ done item rest state, items = done ++ item :: rest →
      invariant done state →
      ∃ next, (body state item = some (.yield next) ∧ invariant (done ++ [item]) next) ∨
        (body state item = some (.done next) ∧ broken (done ++ [item]) next)) :
    ∃ final, forBreak body start items = some final ∧
      (invariant items final ∨
        ∃ done rest, items = done ++ rest ∧ broken done final) := by
  suffices generalized : ∀ done rest state, items = done ++ rest → invariant done state →
      ∃ final, forBreak body state rest = some final ∧
        (invariant items final ∨
          ∃ done rest, items = done ++ rest ∧ broken done final) by
    exact generalized [] items start rfl initial
  intro done rest
  induction rest generalizing done with
  | nil =>
      intro state split holds
      rw [List.append_nil] at split
      exact ⟨state, rfl, .inl (split ▸ holds)⟩
  | cons item rest inductionHypothesis =>
      intro state split holds
      have split' : items = (done ++ [item]) ++ rest := by simpa using split
      obtain ⟨next, ⟨stepped, nextHolds⟩ | ⟨stepped, left⟩⟩ :=
        preserved done item rest state split holds
      · obtain ⟨final, finished, finalHolds⟩ :=
          inductionHypothesis (done ++ [item]) next split' nextHolds
        exact ⟨final, by simp only [forBreak, stepped, finished], finalHolds⟩
      · exact ⟨next, by simp only [forBreak, stepped],
          .inr ⟨done ++ [item], rest, split', left⟩⟩

end ForLoops

section UnboundedLoops

/-- `do body while (again)` for at most the given number of rounds. -/
def doWhile (body : State → Option (State × Bool)) : Nat → State → Option State
  | 0, _ => none
  | rounds + 1, state =>
      match body state with
      | none => none
      | some (next, again) => if again then doWhile body rounds next else some next

def whileDo (guard : State → Bool) (body : State → Option State) :
    Nat → State → Option State
  | 0, _ => none
  | rounds + 1, state =>
      if guard state then
        match body state with
        | none => none
        | some next => whileDo guard body rounds next
      else some state

theorem doWhile_mono {body : State → Option (State × Bool)} {state final : State}
    {rounds more : Nat} (finished : doWhile body rounds state = some final)
    (enough : rounds ≤ more) : doWhile body more state = some final := by
  induction rounds generalizing state more with
  | zero => simp [doWhile] at finished
  | succ rounds inductionHypothesis =>
      obtain ⟨more, rfl⟩ : ∃ smaller, more = smaller + 1 := ⟨more - 1, by omega⟩
      cases result : body state with
      | none => simp [doWhile, result] at finished
      | some outcome =>
          obtain ⟨next, again⟩ := outcome
          cases again with
          | false => simpa [doWhile, result] using finished
          | true =>
              simp only [doWhile, result, if_true] at finished ⊢
              exact inductionHypothesis finished (by omega)

theorem whileDo_mono {guard : State → Bool} {body : State → Option State}
    {state final : State} {rounds more : Nat}
    (finished : whileDo guard body rounds state = some final)
    (enough : rounds ≤ more) : whileDo guard body more state = some final := by
  induction rounds generalizing state more with
  | zero => simp [whileDo] at finished
  | succ rounds inductionHypothesis =>
      obtain ⟨more, rfl⟩ : ∃ smaller, more = smaller + 1 := ⟨more - 1, by omega⟩
      by_cases entered : guard state = true
      · cases result : body state with
        | none => simp [whileDo, entered, result] at finished
        | some next =>
            simp only [whileDo, entered, result, if_true] at finished ⊢
            exact inductionHypothesis finished (by omega)
      · simpa [whileDo, entered] using finished

/-- The rule of a `do` loop.  `invariant round` holds when the given round
starts, no round beyond `last` starts, and the round that ends the loop
establishes `post`. -/
theorem doWhile_total (body : State → Option (State × Bool))
    (invariant : Nat → State → Prop) (post : State → Prop) (last : Nat)
    (start : State) (initial : invariant 0 start)
    (round : ∀ index state, invariant index state → index ≤ last ∧
      ∃ next again, body state = some (next, again) ∧
        (again = true → invariant (index + 1) next) ∧ (again = false → post next)) :
    ∃ final, (∀ rounds, last < rounds → doWhile body rounds start = some final) ∧
      post final := by
  suffices generalized : ∀ rounds index state, invariant index state →
      last < index + rounds →
      ∃ final, doWhile body rounds state = some final ∧ post final by
    obtain ⟨final, finished, holds⟩ := generalized (last + 1) 0 start initial (by omega)
    exact ⟨final, fun rounds enough => doWhile_mono finished enough, holds⟩
  intro rounds
  induction rounds with
  | zero =>
      intro index state holds exhausted
      have := (round index state holds).1
      omega
  | succ rounds inductionHypothesis =>
      intro index state holds enough
      obtain ⟨_, next, again, stepped, continues, stops⟩ := round index state holds
      cases again with
      | false => exact ⟨next, by simp [doWhile, stepped], stops rfl⟩
      | true =>
          obtain ⟨final, finished, post⟩ :=
            inductionHypothesis (index + 1) next (continues rfl) (by omega)
          exact ⟨final, by simp [doWhile, stepped, finished], post⟩

/-- A `do` loop whose rounds lower a measure, until one of them ends it with `post`. -/
theorem doWhile_measure {body : State → Option (State × Bool)} (measure : State → Nat)
    (invariant post : State → Prop) {start : State} (initial : invariant start)
    (round : ∀ state, invariant state → ∃ next again, body state = some (next, again) ∧
      (again = true → invariant next ∧ measure next < measure state) ∧
      (again = false → post next)) :
    ∃ final, (∀ rounds, measure start < rounds → doWhile body rounds start = some final) ∧
      post final := by
  refine doWhile_total body
    (fun index state => invariant state ∧ index + measure state ≤ measure start) post
    (measure start) start ⟨initial, by omega⟩ ?_
  rintro index state ⟨holds, spent⟩
  obtain ⟨next, again, stepped, continues, stops⟩ := round state holds
  refine ⟨by omega, next, again, stepped, fun more => ?_, stops⟩
  obtain ⟨nextHolds, lower⟩ := continues more
  exact ⟨nextHolds, by omega⟩

/-- The rule of a `while` loop. -/
theorem whileDo_total (guard : State → Bool) (body : State → Option State)
    (invariant : Nat → State → Prop) (last : Nat)
    (start : State) (initial : invariant 0 start)
    (round : ∀ index state, invariant index state → guard state = true → index < last ∧
      ∃ next, body state = some next ∧ invariant (index + 1) next) :
    ∃ final, (∀ rounds, last < rounds → whileDo guard body rounds start = some final) ∧
      guard final = false ∧ ∃ index, invariant index final := by
  suffices generalized : ∀ rounds index state, invariant index state →
      index ≤ last → last < index + rounds →
      ∃ final, whileDo guard body rounds state = some final ∧
        guard final = false ∧ ∃ index, invariant index final by
    obtain ⟨final, finished, holds⟩ :=
      generalized (last + 1) 0 start initial (by omega) (by omega)
    exact ⟨final, fun rounds enough => whileDo_mono finished enough, holds⟩
  intro rounds
  induction rounds with
  | zero =>
      intro index state _ within exhausted
      omega
  | succ rounds inductionHypothesis =>
      intro index state holds within enough
      cases entered : guard state with
      | false => exact ⟨state, by simp [whileDo, entered], entered, index, holds⟩
      | true =>
          obtain ⟨within', next, stepped, nextHolds⟩ := round index state holds entered
          obtain ⟨final, finished, post⟩ :=
            inductionHypothesis (index + 1) next nextHolds (by omega) (by omega)
          exact ⟨final, by simp [whileDo, entered, stepped, finished], post⟩

def recorded {Seen : Type v} (view : State → Seen) (body : State → Option (State × Bool)) :
    State × List Seen → Option ((State × List Seen) × Bool) :=
  fun state => (body state.1).map fun outcome =>
    ((outcome.1, state.2 ++ [view state.1]), outcome.2)

/-- What every round of a finished `while` loop keeps, with the number of the round. -/
theorem whileDo_invariant {guard : State → Bool} {body : State → Option State}
    (invariant : Nat → State → Prop) {rounds : Nat} {start final : State}
    (finished : whileDo guard body rounds start = some final) (initial : invariant 0 start)
    (round : ∀ index before after, invariant index before → body before = some after →
      invariant (index + 1) after) :
    ∃ index, invariant index final := by
  suffices generalized : ∀ rounds index start, invariant index start →
      whileDo guard body rounds start = some final → ∃ index, invariant index final from
    generalized rounds 0 start initial finished
  intro rounds
  induction rounds with
  | zero =>
      intro index start _ finished
      simp [whileDo] at finished
  | succ rounds inductionHypothesis =>
      intro index start holds finished
      by_cases entered : guard start = true
      · cases result : body start with
        | none => simp [whileDo, entered, result] at finished
        | some next =>
            simp only [whileDo, entered, result, if_true] at finished
            exact inductionHypothesis (index + 1) next (round index start next holds result) finished
      · obtain rfl : start = final := by simpa [whileDo, entered] using finished
        exact ⟨index, holds⟩

/-- A `while` loop whose guard every round keeps true does not come to an end. -/
theorem whileDo_diverges {guard : State → Bool} {body : State → Option State}
    (invariant : State → Prop) (entered : ∀ state, invariant state → guard state = true)
    (round : ∀ before after, invariant before → body before = some after → invariant after)
    (rounds : Nat) {start : State} (initial : invariant start) :
    whileDo guard body rounds start = none := by
  induction rounds generalizing start with
  | zero => rfl
  | succ rounds inductionHypothesis =>
      cases result : body start with
      | none => simp [whileDo, entered start initial, result]
      | some next =>
          simp only [whileDo, entered start initial, result, if_true]
          exact inductionHypothesis (round start next initial result)

end UnboundedLoops

section Simulation

variable {Other : Type v}

/-- Two `for` loops over the same items stay related when their bodies do. -/
theorem foldlM_simulation (body : State → Item → Option State)
    (otherBody : Other → Item → Option Other) (related : List Item → State → Other → Prop)
    (items : List Item) {start : State} {otherStart otherFinal : Other}
    (initial : related [] start otherStart)
    (step : ∀ done item rest state other otherNext, items = done ++ item :: rest →
      related done state other → otherBody other item = some otherNext →
      ∃ next, body state item = some next ∧ related (done ++ [item]) next otherNext)
    (finished : items.foldlM otherBody otherStart = some otherFinal) :
    ∃ final, items.foldlM body start = some final ∧ related items final otherFinal := by
  suffices generalized : ∀ done rest state other, items = done ++ rest →
      related done state other → rest.foldlM otherBody other = some otherFinal →
      ∃ final, rest.foldlM body state = some final ∧ related items final otherFinal by
    exact generalized [] items start otherStart rfl initial finished
  intro done rest
  induction rest generalizing done with
  | nil =>
      intro state other split holds ended
      rw [List.foldlM_nil, Option.pure_def, Option.some.injEq] at ended
      rw [List.append_nil] at split
      exact ⟨state, rfl, by rw [← ended, split]; exact holds⟩
  | cons item rest inductionHypothesis =>
      intro state other split holds ended
      cases otherStep : otherBody other item with
      | none => simp [otherStep] at ended
      | some otherNext =>
          obtain ⟨next, stepped, nextHolds⟩ :=
            step done item rest state other otherNext split holds otherStep
          rw [List.foldlM_cons, otherStep] at ended
          obtain ⟨final, ran, finalHolds⟩ := inductionHypothesis (done ++ [item]) next otherNext
            (by simpa using split) nextHolds ended
          refine ⟨final, ?_, finalHolds⟩
          rw [List.foldlM_cons, stepped]
          exact ran

def SameOutcome (related : State → Other → Prop) :
    ForInStep State → ForInStep Other → Prop
  | .done state, .done other => related state other
  | .yield state, .yield other => related state other
  | _, _ => False

theorem forBreak_simulation (body : State → Item → Option (ForInStep State))
    (otherBody : Other → Item → Option (ForInStep Other)) (related : State → Other → Prop)
    (items : List Item) {start : State} {otherStart otherFinal : Other}
    (initial : related start otherStart)
    (step : ∀ item state other outcome, item ∈ items → related state other →
      otherBody other item = some outcome →
      ∃ mine, body state item = some mine ∧ SameOutcome related mine outcome)
    (finished : forBreak otherBody otherStart items = some otherFinal) :
    ∃ final, forBreak body start items = some final ∧ related final otherFinal := by
  induction items generalizing start otherStart with
  | nil =>
      rw [forBreak_nil, Option.some.injEq] at finished
      exact ⟨start, rfl, finished ▸ initial⟩
  | cons item rest inductionHypothesis =>
      cases otherStep : otherBody otherStart item with
      | none => simp [forBreak, otherStep] at finished
      | some outcome =>
          obtain ⟨mine, stepped, same⟩ :=
            step item start otherStart outcome (by simp) initial otherStep
          have later := fun item' state other outcome membership =>
            step item' state other outcome (List.mem_cons_of_mem _ membership)
          cases outcome with
          | done otherNext =>
              cases mine with
              | yield next => exact same.elim
              | done next =>
                  simp only [forBreak, otherStep, Option.some.injEq] at finished
                  exact ⟨next, by simp only [forBreak, stepped], finished ▸ same⟩
          | yield otherNext =>
              cases mine with
              | done next => exact same.elim
              | yield next =>
                  simp only [forBreak, otherStep] at finished
                  obtain ⟨final, ran, finalHolds⟩ := inductionHypothesis same later finished
                  exact ⟨final, by simp only [forBreak, stepped, ran], finalHolds⟩

/-- Two `do` loops whose rounds correspond, up to the same decision to go on, end
after the same number of rounds in related states. -/
theorem doWhile_simulation (body : State → Option (State × Bool))
    (otherBody : Other → Option (Other × Bool)) (related : State → Other → Prop)
    (step : ∀ state other otherNext again, related state other →
      otherBody other = some (otherNext, again) →
      ∃ next, body state = some (next, again) ∧ related next otherNext)
    {rounds : Nat} {start : State} {otherStart otherFinal : Other}
    (initial : related start otherStart)
    (finished : doWhile otherBody rounds otherStart = some otherFinal) :
    ∃ final, doWhile body rounds start = some final ∧ related final otherFinal := by
  induction rounds generalizing start otherStart with
  | zero => simp [doWhile] at finished
  | succ rounds inductionHypothesis =>
      cases otherStep : otherBody otherStart with
      | none => simp [doWhile, otherStep] at finished
      | some outcome =>
          obtain ⟨otherNext, again⟩ := outcome
          obtain ⟨next, stepped, nextRelated⟩ :=
            step start otherStart otherNext again initial otherStep
          cases again with
          | false =>
              simp only [doWhile, otherStep, Bool.false_eq_true, if_false,
                Option.some.injEq] at finished
              exact ⟨next, by simp [doWhile, stepped], finished ▸ nextRelated⟩
          | true =>
              simp only [doWhile, otherStep, if_true] at finished
              obtain ⟨final, ran, finalRelated⟩ := inductionHypothesis nextRelated finished
              exact ⟨final, by simp [doWhile, stepped, ran], finalRelated⟩

end Simulation

end CheckedLoop
