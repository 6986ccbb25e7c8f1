import GraphAccelerator.Accelerator.LevelRefinement
import GraphAccelerator.Accelerator.Segments

/-!
# The accelerator over time

The threads of `pe` wait for cycles of its clock, and the memory answers at any time.
`bfsController` is a method that is sensitive to the clock: the threads whose wait ends
at an edge run before the edge reaches it, so it runs once in every cycle and after
them.  It also runs when the simulation starts.
-/

namespace GraphAccelerator

open Memory Kernel

abbrev TimedThread := {thread : PeThread // thread ≠ .bfsController}

/-- A response thread waits for a burst as many cycles as the burst has entries, every
other thread waits for one cycle. -/
def PeThread.transfers : PeThread → Bool
  | .processInspectDepthReadResp _ => true
  | .processExpandRpaoReadResp => true
  | .processExpandCiaoReadResp => true
  | .processExpandDepthReadResp => true
  | _ => false

namespace Pe

variable {gl : Gl}

def start (gl : Gl) (ramData : List Byte) : Timed TimedThread Pe :=
  ⟨0, fun _ => 0, (reset gl ramData).bfsController⟩

abbrev Cycle (gl : Gl) : Timed TimedThread Pe → Timed TimedThread Pe → Prop :=
  Step (fun thread _ before after delay => before.resume gl thread.val = some (after, delay))
    (fun _ before after => ∃ i, before.answer i = some after) bfsController

theorem resume_unit {thread : PeThread} (unit : thread.transfers = false) {pe after : Pe}
    {delay : Nat} (ran : pe.resume gl thread = some (after, delay)) : delay = 1 := by
  cases thread with
  | sendMemReq | getMemResp | processExpandDepthWriteResp | bfsController =>
      cases ran
      rfl
  | issueInspectDepthReadReq prIdx => exact (inspectDepthReqThread_cases ran).1
  | inspectDepthAnalysis =>
      cases ran
      rfl
  | frontierAnalysis => exact (frontierAnalysis_cases ran).1
  | issueExpandCiaoReadReq => exact (issueExpandCiaoReadReq_cases ran).1
  | issueExpandDepthReadReq => exact (issueExpandDepthReadReq_cases ran).1
  | expandDepthAnalysis => exact (expandDepthAnalysis_cases ran).1
  | processInspectDepthReadResp | processExpandRpaoReadResp | processExpandCiaoReadResp
    | processExpandDepthReadResp => cases unit

/-- What holds at all times: the bursts are in order, and no thread is late. -/
structure OnTime (timed : Timed TimedThread Pe) : Prop where
  consistent : timed.state.Consistent
  notPast : ∀ thread, timed.now ≤ timed.due thread
  soon : ∀ thread : TimedThread, thread.val.transfers = false →
    timed.due thread ≤ timed.now + 1

theorem reset_consistent (gl : Gl) (ramData : List Byte) : (reset gl ramData).Consistent where
  indexed := ⟨nofun, fun _ => .nil, nofun, rfl, nofun⟩
  inspect _ _ := rfl
  ciao _ := rfl

theorem onTime_start (gl : Gl) (ramData : List Byte) : OnTime (start gl ramData) where
  consistent := (@bfsController_pipeline gl _ (reset_consistent gl ramData)).1
  notPast _ := Nat.le_refl _
  soon _ _ := Nat.zero_le _

theorem onTime_step {before after : Timed TimedThread Pe} (onTime : OnTime before)
    (stepped : Cycle gl before after) : OnTime after where
  consistent := by
    cases stepped with
    | @resume _ _ _ _ thread _ _ _ ran =>
        exact (resume_refines onTime.consistent thread.property ran).consistent
    | interfere answered =>
        obtain ⟨i, answered⟩ := answered
        exact (@answer_refines gl _ _ i onTime.consistent answered).consistent
    | advance _ => exact (@bfsController_pipeline gl _ onTime.consistent).1
  notPast := stepped.notPast onTime.notPast
  soon thread unit :=
    stepped.soon (fun _ _ _ _ ran => resume_unit unit ran) (onTime.soon thread unit)

end Pe

end GraphAccelerator
