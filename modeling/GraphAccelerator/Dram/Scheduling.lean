import GraphAccelerator.Library.Loop
import GraphAccelerator.Dram.Channel

/-!
# The choice of the scheduler

`get_head` finds the oldest request among those that its policy prefers.  The policy that
gives priority to row hits takes care that no row is closed which a request in the queue
still hits.
-/

namespace GraphAccelerator.Dram

variable {Command State : Type} (spec : Standard Command State)

namespace Controller

def Ready (c : Controller Command State) (req : Request) : Prop :=
  c.isReady spec req = some true

def Hits (c : Controller Command State) (req : Request) : Prop :=
  c.isRowHit spec req = some true

def Closes (c : Controller Command State) (req : Request) : Prop :=
  c.isRowHit spec req = some false ∧ c.isRowOpen spec req = some true

/-- Another row has to be closed for the request although a request in the queue hits it. -/
def Harms (c : Controller Command State) (q : List Request) (req : Request) : Prop :=
  c.Closes spec req ∧ ∃ hit ∈ q, c.Hits spec hit ∧ rowgroup spec req = rowgroup spec hit

end Controller

def Prefers (prior : Request → Prop) (one other : Nat × Request) : Prop :=
  (prior other.2 → prior one.2) ∧
    ((prior one.2 → prior other.2) →
      one.2.arrive < other.2.arrive ∨ one.2.arrive = other.2.arrive ∧ one.1 ≤ other.1)

theorem Prefers.trans {prior : Request → Prop} (one two three : Nat × Request)
    (first : Prefers prior one two) (second : Prefers prior two three) :
    Prefers prior one three := by
  refine ⟨fun holds => first.1 (second.1 holds), fun same => ?_⟩
  have sameFirst := first.2 fun holds => second.1 (same holds)
  have sameSecond := second.2 fun holds => same (first.1 holds)
  omega

structure Chosen (prior eligible : Request → Prop) (q : List Request) (one : Nat × Request) :
    Prop where
  found : q[one.1]? = some one.2
  may : eligible one.2
  first : ∀ i other, q[i]? = some other → eligible other → Prefers prior one (i, other)

namespace Controller

variable {spec} {c : Controller Command State} {policy : Policy}

/-- `compare` prefers the older of two requests, the first one if both are as old. -/
theorem compare_prefers (req1 req2 better : Nat × Request) (earlier : req1.1 < req2.1)
    (compared : c.compare spec policy req1 req2 = some better) :
    (better = req1 ∧ Prefers (fun req => c.prior spec req policy = some true) req1 req2) ∨
      (better = req2 ∧ Prefers (fun req => c.prior spec req policy = some true) req2 req1) := by
  unfold compare at compared
  simp only [Option.bind_eq_bind, Option.bind_eq_some_iff] at compared
  obtain ⟨ready1, first, ready2, second, compared⟩ := compared
  have chosen := Option.some.inj compared
  simp only [Prefers, first, second, Option.some.injEq]
  cases ready1 <;> cases ready2
  case false.true =>
    exact .inr ⟨chosen.symm, by simp⟩
  case true.false =>
    exact .inl ⟨chosen.symm, by simp⟩
  all_goals
    by_cases older : req1.2.arrive ≤ req2.2.arrive
    · refine .inl ⟨by simpa [older] using chosen.symm, by simp; omega⟩
    · refine .inr ⟨by simpa [older] using chosen.symm, by simp; omega⟩

theorem best_prefers {q : List (Nat × Request)} (ordered : q.Pairwise fun one two => one.1 < two.1)
    {head : Option (Nat × Request)} (chosen : c.best spec policy q = some head) :
    (head = none ↔ q = []) ∧ ∀ one, head = some one → one ∈ q ∧ ∀ other ∈ q,
      Prefers (fun req => c.prior spec req policy = some true) one other := by
  cases q with
  | nil =>
      obtain rfl : none = head := Option.some.inj chosen
      simp
  | cons first rest =>
      obtain ⟨one, finished, rfl⟩ := Option.map_eq_some_iff.mp chosen
      refine ⟨by simp, ?_⟩
      rintro _ ⟨⟩
      exact CheckedLoop.foldlM_best _ _ (fun item => ⟨id, fun _ => .inr ⟨rfl, le_rfl⟩⟩)
        Prefers.trans compare_prefers ordered finished

theorem select_spec {Item : Type} {keep : Item → Option Bool} {items kept : List Item}
    (selected : select keep items = some kept) :
    kept.Sublist items ∧ (∀ item ∈ items, ∃ value, keep item = some value) ∧
      ∀ item, item ∈ kept ↔ item ∈ items ∧ keep item = some true := by
  induction items generalizing kept with
  | nil =>
      obtain rfl : [] = kept := Option.some.inj selected
      simp
  | cons item rest inductionHypothesis =>
      rw [select] at selected
      simp only [Option.bind_eq_bind, Option.bind_eq_some_iff] at selected
      obtain ⟨value, asked, others, rested, selected⟩ := selected
      obtain rfl := Option.some.inj selected
      obtain ⟨sublist, total, members⟩ := inductionHypothesis rested
      refine ⟨?_, List.forall_mem_cons.mpr ⟨⟨value, asked⟩, total⟩, ?_⟩
      · cases value with
        | false => exact sublist.cons item
        | true => exact sublist.cons_cons item
      · intro other
        cases value with
        | false =>
            simp only [Bool.false_eq_true, if_false, members, List.mem_cons]
            constructor
            · rintro ⟨present, holds⟩
              exact ⟨.inr present, holds⟩
            · rintro ⟨rfl | present, holds⟩
              · rw [asked] at holds
                cases holds
              · exact ⟨present, holds⟩
        | true =>
            simp only [if_true, List.mem_cons, members]
            constructor
            · rintro (rfl | ⟨present, holds⟩)
              · exact ⟨.inl rfl, asked⟩
              · exact ⟨.inr present, holds⟩
            · rintro ⟨rfl | present, holds⟩
              · exact .inl rfl
              · exact .inr ⟨present, holds⟩

theorem mem_places {q : List Request} {one : Nat × Request} :
    one ∈ q.zipIdx.map (fun (req, i) => (i, req)) ↔ q[one.1]? = some one.2 := by
  obtain ⟨i, req⟩ := one
  simp [List.mem_zipIdx_iff_getElem?]

theorem places_ordered (q : List Request) :
    (q.zipIdx.map fun (req, i) => (i, req)).Pairwise fun one two => one.1 < two.1 := by
  rw [List.pairwise_map, List.pairwise_iff_getElem]
  intro i j iBound jBound less
  simpa using less

theorem violatesHit_iff {q : List Request} {hitReqs : List (Nat × Request)}
    (hits : ∀ one, one ∈ hitReqs ↔ q[one.1]? = some one.2 ∧ c.Hits spec one.2)
    {one : Nat × Request} {violates : Bool}
    (tested : c.violatesHit spec hitReqs one = some violates) :
    violates = true ↔ c.Harms spec q one.2 := by
  unfold violatesHit at tested
  simp only [Option.bind_eq_bind, Option.bind_eq_some_iff] at tested
  obtain ⟨hit, asked, tested⟩ := tested
  cases hit with
  | true =>
      obtain rfl : false = violates := Option.some.inj tested
      simp [Harms, Closes, asked]
  | false =>
      obtain ⟨opened, asksRow, tested⟩ := Option.bind_eq_some_iff.mp tested
      cases opened with
      | false =>
          obtain rfl : false = violates := Option.some.inj tested
          simp [Harms, Closes, asksRow]
      | true =>
          obtain rfl := Option.some.inj tested
          simp only [Harms, Closes, asked, asksRow, true_and, List.any_eq_true, hits,
            decide_eq_true_eq, Prod.exists]
          constructor
          · rintro ⟨i, req, ⟨present, hits⟩, same⟩
            exact ⟨req, List.mem_of_getElem? present, hits, same⟩
          · rintro ⟨req, present, hits, same⟩
            obtain ⟨i, found⟩ := List.mem_iff_getElem?.mp present
            exact ⟨i, req, ⟨found, hits⟩, same⟩

theorem getHead_once (once : policy ≠ .frfcfsPriorHit) {q : List Request}
    {head : Option (Nat × Request)} (found : c.getHead spec policy q = some head) :
    (head = none ↔ q = []) ∧ ∀ one, head = some one →
      Chosen (fun req => c.prior spec req policy = some true) (fun _ => True) q one := by
  unfold getHead at found
  simp only [Option.bind_eq_bind, Option.bind_eq_some_iff] at found
  obtain ⟨best, first, found⟩ := found
  rw [if_pos once] at found
  obtain rfl := Option.some.inj found
  obtain ⟨empty, members⟩ := best_prefers (places_ordered q) first
  refine ⟨by simpa using empty, fun one isBest => ?_⟩
  obtain ⟨present, prefers⟩ := members one isBest
  exact ⟨mem_places.mp present, trivial, fun i other there _ => prefers _ (mem_places.mpr there)⟩

/-- With priority to row hits: a request that is ready and hits, or else a request that
harms no hit. -/
theorem getHead_priorHit {q : List Request} {head : Option (Nat × Request)}
    (found : c.getHead spec .frfcfsPriorHit q = some head) :
    (head = none ↔ q = []) ∧ ∀ one, head = some one →
      ((∃ other ∈ q, c.Ready spec other ∧ c.Hits spec other) →
        Chosen (fun req => c.Ready spec req ∧ c.Hits spec req) (fun _ => True) q one) ∧
      ((∀ other ∈ q, ¬ (c.Ready spec other ∧ c.Hits spec other)) →
        Chosen (c.Ready spec) (fun req => ¬ c.Harms spec q req) q one) := by
  have priorHit : ∀ req, c.prior spec req .frfcfsPriorHit = some true ↔
      c.Ready spec req ∧ c.Hits spec req := by
    intro req
    simp only [prior, Ready, Hits, Option.bind_eq_bind, Option.bind_eq_some_iff]
    constructor
    · rintro ⟨ready, asked, hit⟩
      cases ready <;> simp_all
    · rintro ⟨ready, hit⟩
      exact ⟨true, ready, by simpa using hit⟩
  unfold getHead at found
  simp only [Option.bind_eq_bind, Option.bind_eq_some_iff] at found
  obtain ⟨best, first, found⟩ := found
  rw [if_neg (by simp)] at found
  obtain ⟨empty, members⟩ := best_prefers (places_ordered q) first
  simp only [priorHit] at members
  cases best with
  | none =>
      obtain rfl : none = head := Option.some.inj found
      exact ⟨by simpa using empty, by simp⟩
  | some best =>
      obtain ⟨present, prefers⟩ := members best rfl
      have nonempty : q ≠ [] := by simpa using empty.not.mp (by simp)
      simp only [Option.bind_eq_some_iff] at found
      obtain ⟨good, asked, found⟩ := found
      cases good with
      | true =>
          obtain rfl : some best = head := Option.some.inj found
          refine ⟨by simpa using nonempty, ?_⟩
          rintro _ ⟨⟩
          have both := (priorHit best.2).mp asked
          refine ⟨fun _ => ⟨mem_places.mp present, trivial, fun i other there _ =>
            prefers _ (mem_places.mpr there)⟩, fun nobody => ?_⟩
          exact absurd both (nobody _ (List.mem_of_getElem? (mem_places.mp present)))
      | false =>
          have nobody : ∀ other ∈ q, ¬ (c.Ready spec other ∧ c.Hits spec other) := by
            intro other there both
            obtain ⟨i, place⟩ := List.mem_iff_getElem?.mp there
            have bestBoth := (prefers (i, other) (mem_places.mpr place)).1 both
            rw [(priorHit best.2).mpr bestBoth] at asked
            cases asked
          simp only [Bool.false_eq_true, if_false, Option.bind_eq_some_iff] at found
          obtain ⟨hitReqs, hitsFound, others, othersFound, second⟩ := found
          obtain ⟨_, hitsTotal, hits⟩ := select_spec hitsFound
          obtain ⟨sublist, total, members⟩ := select_spec othersFound
          simp only [mem_places] at hits
          have harmless : ∀ one, one ∈ others ↔
              q[one.1]? = some one.2 ∧ ¬ c.Harms spec q one.2 := by
            intro one
            rw [members, mem_places]
            refine and_congr_right fun there => ?_
            obtain ⟨value, kept⟩ := total one (mem_places.mpr there)
            obtain ⟨violates, tested, result⟩ := Option.bind_eq_some_iff.mp kept
            rw [← violatesHit_iff hits tested, tested]
            simp
          obtain ⟨noOthers, othersPrefer⟩ :=
            best_prefers ((places_ordered q).sublist sublist) second
          refine ⟨?_, fun one isHead => ⟨?_, fun _ => ?_⟩⟩
          · rw [noOthers]
            refine ⟨fun none => ?_, fun isEmpty => absurd isEmpty nonempty⟩
            have all : ∀ req ∈ q, c.Harms spec q req := by
              intro req there
              obtain ⟨i, place⟩ := List.mem_iff_getElem?.mp there
              by_contra harmsNot
              simpa [none] using (harmless (i, req)).mpr ⟨place, harmsNot⟩
            -- what would be harmed is a request that hits, and this one harms nothing
            obtain ⟨_, hit, there, hits, _⟩ := all _ (List.mem_of_getElem? (mem_places.mp present))
            have notHit := (all hit there).1.1
            rw [hits] at notHit
            cases notHit
          · rintro ⟨other, there, both⟩
            exact absurd both (nobody other there)
          · obtain ⟨there, prefers⟩ := othersPrefer one isHead
            obtain ⟨place, harmsNot⟩ := (harmless one).mp there
            exact ⟨place, harmsNot, fun i other otherPlace otherHarmsNot =>
              prefers _ ((harmless (i, other)).mpr ⟨otherPlace, otherHarmsNot⟩)⟩

theorem getHead_found {q : List Request} {i : Nat} {req : Request}
    (found : c.getHead spec policy q = some (some (i, req))) : q[i]? = some req := by
  by_cases twice : policy = .frfcfsPriorHit
  · subst twice
    obtain ⟨hit, other⟩ := (getHead_priorHit found).2 _ rfl
    by_cases some : ∃ other ∈ q, c.Ready spec other ∧ c.Hits spec other
    · exact (hit some).found
    · exact (other (by push Not at some; simpa using some)).found
  · exact ((getHead_once twice found).2 _ rfl).found

theorem getHead_none {q : List Request} (found : c.getHead spec policy q = some none) : q = [] := by
  by_cases twice : policy = .frfcfsPriorHit
  · subst twice
    exact (getHead_priorHit found).1.mp rfl
  · exact (getHead_once twice found).1.mp rfl

structure Answered (spec : Standard Command State) (c : Controller Command State)
    (req : Request) : Prop where
  ready : ∃ value, c.isReady spec req = some value
  hit : ∃ value, c.isRowHit spec req = some value
  opened : ∃ value, c.isRowOpen spec req = some value
  hits : ∃ hits, c.rowtable.getHits spec req.addrVec = some hits

theorem Answered.prior {req : Request} (answered : Answered spec c req) (policy : Policy) :
    ∃ value, c.prior spec req policy = some value := by
  obtain ⟨⟨ready, isReady⟩, ⟨hit, isHit⟩, _, hits, hasHits⟩ := answered
  cases policy with
  | fcfs => exact ⟨true, rfl⟩
  | frfcfs => exact ⟨ready, isReady⟩
  | frfcfsCap =>
      cases ready with
      | false => exact ⟨false, by simp [Controller.prior, isReady]⟩
      | true => exact ⟨decide (hits ≤ cap), by simp [Controller.prior, isReady, hasHits]⟩
  | frfcfsPriorHit =>
      cases ready with
      | false => exact ⟨false, by simp [Controller.prior, isReady]⟩
      | true => exact ⟨hit, by simp [Controller.prior, isReady, isHit]⟩

theorem best_total (policy : Policy) {q : List (Nat × Request)}
    (answered : ∀ one ∈ q, Answered spec c one.2) : ∃ head, c.best spec policy q = some head := by
  cases q with
  | nil => exact ⟨none, rfl⟩
  | cons first rest =>
      obtain ⟨head, looped, _⟩ := CheckedLoop.foldlM_total (c.compare spec policy)
        (fun _ one => Answered spec c one.2) rest first (answered first (by simp)) (by
          intro done one later head split known
          have asked := answered one (by simp [split])
          obtain ⟨ready1, first⟩ := known.prior policy
          obtain ⟨ready2, second⟩ := asked.prior policy
          refine ⟨_, by rw [compare, first, second]; rfl, ?_⟩
          split_ifs <;> assumption)
      exact ⟨some head, by rw [best, looped]; rfl⟩

theorem select_total {Item : Type} {keep : Item → Option Bool} {items : List Item}
    (total : ∀ item ∈ items, ∃ value, keep item = some value) :
    ∃ kept, select keep items = some kept := by
  induction items with
  | nil => exact ⟨[], rfl⟩
  | cons item rest inductionHypothesis =>
      obtain ⟨value, kept⟩ := total item (by simp)
      obtain ⟨others, rested⟩ := inductionHypothesis fun other present => total other (by simp [present])
      exact ⟨_, by rw [select, kept, rested]; rfl⟩

theorem getHead_total (policy : Policy) {q : List Request}
    (answered : ∀ req ∈ q, Answered spec c req) :
    ∃ head, c.getHead spec policy q = some head := by
  have places : ∀ one ∈ q.zipIdx.map (fun (req, i) => (i, req)), Answered spec c one.2 :=
    fun one there => answered one.2 (List.mem_of_getElem? (mem_places.mp there))
  obtain ⟨first, found⟩ := best_total policy places
  by_cases once : policy = .frfcfsPriorHit
  · subst once
    cases first with
    | none => exact ⟨none, by simp [getHead, found]⟩
    | some first =>
        have there := (best_prefers (places_ordered q) found).2 first rfl
        obtain ⟨good, isGood⟩ := (places first there.1).prior .frfcfsPriorHit
        cases good with
        | true => exact ⟨some first, by simp [getHead, found, isGood]⟩
        | false =>
            obtain ⟨hitReqs, hits⟩ := select_total fun one there => (places one there).hit
            have violates : ∀ one ∈ q.zipIdx.map (fun (req, i) => (i, req)),
                ∃ value, (do return !(← c.violatesHit spec hitReqs one)) = some value := by
              intro one there
              obtain ⟨_, ⟨hit, isHit⟩, ⟨opened, isOpen⟩, _⟩ := places one there
              simp only [violatesHit, isHit, isOpen, Option.bind_eq_bind, Option.bind_some]
              cases hit <;> cases opened <;> exact ⟨_, rfl⟩
            obtain ⟨others, kept⟩ := select_total violates
            obtain ⟨_, _, members⟩ := select_spec kept
            obtain ⟨head, second⟩ := best_total .frfcfs fun one there =>
              places one ((members one).mp there).1
            refine ⟨head, ?_⟩
            simp only [Option.bind_eq_bind] at kept
            simp only [getHead, found, Option.bind_eq_bind, Option.bind_some, isGood, hits, kept,
              second, Bool.false_eq_true, if_false, ne_eq, not_true_eq_false]
  · exact ⟨first, by simp [getHead, found, once]⟩

end Controller

end GraphAccelerator.Dram
