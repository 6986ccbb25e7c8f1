import GraphAccelerator.Accelerator.Frames
import GraphAccelerator.Accelerator.Image

/-!
# Replayed runs

A run is given by the order of its steps.  To replay it, the bytes of the memory image
that it reads have to be known, and nothing else of the image.
-/

namespace GraphAccelerator

open Memory

/-- The bytes that a run relies on. -/
abbrev Known := Nat → Option Byte

def Known.Backs (known : Known) (ramData : List Byte) : Prop :=
  ∀ addr byte, known addr = some byte → ramData[addr]? = some byte

def Known.shown (known : Known) (count : Nat) (ramData : List Byte) : List Byte :=
  (List.range count).map (fun addr => (known addr).getD (ramData[addr]?.getD 0)) ++
    ramData.drop count

theorem Known.Backs.shown {known : Known} {ramData : List Byte} (backs : known.Backs ramData)
    {count : Nat} (inside : count ≤ ramData.length) : known.shown count ramData = ramData := by
  have bytes : (List.range count).map (fun addr => (known addr).getD (ramData[addr]?.getD 0)) =
      ramData.take count := by
    refine List.ext_getElem (by simp [inside]) fun addr _ bound => ?_
    have present : addr < ramData.length := by
      rw [List.length_take] at bound
      omega
    rw [List.getElem_take, List.getElem_map, List.getElem_range]
    cases stored : known addr with
    | none => simp [present]
    | some byte =>
        obtain ⟨_, same⟩ := List.getElem?_eq_some_iff.mp (backs addr byte stored)
        rw [Option.getD_some, same]
  rw [Known.shown, bytes, List.take_append_drop]

inductive Choice where
  | resume (thread : PeThread)
  | answer (i : Port)
  deriving DecidableEq, Repr

namespace Pe

/-- `answer` with known bytes, for writes of one byte. -/
def answerFrom (known : Known) (i : Port) (pe : Pe) : Option (Known × Pe) :=
  match pe.sent i with
  | [] => none
  | burstIdx :: rest => do
      let op ← pe.bursts[burstIdx]?
      let moved := { pe with
        sent := Function.update pe.sent i rest
        answered := Function.update pe.answered i (pe.answered i ++ [burstIdx])
        counted := pe.burstIdx_eq }
      if op.type = .write then do
        let _ ← known op.addr
        match op.data, op.length with
        | [byte], 1 =>
            return (Function.update known op.addr (some byte),
              { moved with ramData := pe.ramData.set op.addr byte })
        | _, _ => none
      else do
        let bytes ← (List.range op.length).mapM fun j => known (op.addr + j)
        return (known, moved.setBurst burstIdx { op with data := op.data ++ bytes })

end Pe

def Choice.run (gl : Gl) (check : Pe → Pe → Bool) : Known × Pe → Choice → Option (Known × Pe)
  | (known, pe), .resume thread => do
      let (after, _) ← pe.resume gl thread
      if check pe after then return (known, after) else none
  | (known, pe), .answer i => pe.answerFrom known i

def replay (gl : Gl) (check : Pe → Pe → Bool) (choices : List Choice) (start : Known × Pe) :
    Option (Known × Pe) :=
  choices.foldlM (Choice.run gl check) start

section Sound

variable {gl : Gl} {check : Pe → Pe → Bool} {known known' : Known} {pe after : Pe} {i : Port}

theorem Known.Backs.read {ramData : List Byte} (backs : known.Backs ramData) {addr : Nat} :
    ∀ {offsets : List Nat} {bytes : List Byte},
      offsets.mapM (fun j => known (addr + j)) = some bytes →
      offsets.mapM (fun j => ramData[addr + j]?) = some bytes
  | [], bytes, read => read
  | j :: offsets, bytes, read => by
      simp only [List.mapM_cons, Option.bind_eq_bind, Option.bind_eq_some_iff] at read ⊢
      obtain ⟨byte, first, rest, others, same⟩ := read
      exact ⟨byte, backs _ _ first, rest, backs.read others, same⟩

theorem Known.Backs.set {ramData : List Byte} (backs : known.Backs ramData) {addr : Nat}
    {old : Byte} (present : known addr = some old) (byte : Byte) :
    Known.Backs (Function.update known addr (some byte)) (ramData.set addr byte) := by
  intro other found same
  by_cases here : other = addr
  · subst here
    rw [Function.update_self, Option.some.injEq] at same
    subst same
    exact List.getElem?_set_self (List.getElem?_eq_some_iff.mp (backs _ _ present)).1
  · rw [Function.update_of_ne here] at same
    rw [List.getElem?_set_ne (Ne.symm here)]
    exact backs other found same

theorem Pe.answerFrom_answer (backs : known.Backs pe.ramData)
    (ran : pe.answerFrom known i = some (known', after)) :
    pe.answer i = some after ∧ known'.Backs after.ramData := by
  simp only [answerFrom] at ran
  split at ran
  · cases ran
  · rename_i burstIdx rest queue
    simp only [Option.bind_eq_bind, Option.bind_eq_some_iff] at ran
    obtain ⟨op, present, ran⟩ := ran
    split at ran
    · rename_i writing
      simp only [Option.bind_eq_some_iff] at ran
      obtain ⟨old, stored, ran⟩ := ran
      split at ran
      · rename_i byte data length
        cases ran
        have ramData := backs _ _ stored
        have written : op.reqToRam pe.ramData = some (pe.ramData.set op.addr byte) := by
          simp [BurstOp.reqToRam, length, data, ramData, List.range_one]
        refine ⟨?_, backs.set stored byte⟩
        simp [answer, queue, present, writing, written]
      · cases ran
    · rename_i reading
      simp only [Option.bind_eq_some_iff] at ran
      obtain ⟨bytes, read, ran⟩ := ran
      cases ran
      have copied : op.ramToReq pe.ramData = some { op with data := op.data ++ bytes } := by
        rw [BurstOp.ramToReq, backs.read read]
        rfl
      refine ⟨?_, backs⟩
      simp [answer, queue, present, reading, copied]

theorem Pe.resume_ramData {thread : PeThread} {delay : Nat}
    (ran : pe.resume gl thread = some (after, delay)) : after.ramData = pe.ramData := by
  by_cases controller : thread = .bfsController
  · subst controller
    cases ran
    obtain ⟨_, _, _, same⟩ := bfsController_eq pe
    rw [same]
  · exact (resume_frame controller ran).ramData

/-- A replayed run is a run; the induction is on the steps. -/
theorem replay_run {Move : Pe → Pe → Prop} {choices : List Choice}
    (resumed : ∀ thread, Choice.resume thread ∈ choices → ∀ pe after delay,
      pe.resume gl thread = some (after, delay) → check pe after = true → Move pe after)
    (answered : ∀ i, Choice.answer i ∈ choices → ∀ pe after, pe.answer i = some after →
      Move pe after)
    (backs : known.Backs pe.ramData)
    (ran : replay gl check choices (known, pe) = some (known', after)) :
    Relation.ReflTransGen Move pe after ∧ known'.Backs after.ramData := by
  induction choices generalizing known pe with
  | nil =>
      cases ran
      exact ⟨.refl, backs⟩
  | cons choice choices inductionHypothesis =>
      rw [replay, List.foldlM_cons, Option.bind_eq_bind, Option.bind_eq_some_iff] at ran
      obtain ⟨⟨knownNext, next⟩, first, ran⟩ := ran
      have later := fun thread (membership : Choice.resume thread ∈ choices) =>
        resumed thread (List.mem_cons_of_mem _ membership)
      have laterAnswers := fun i (membership : Choice.answer i ∈ choices) =>
        answered i (List.mem_cons_of_mem _ membership)
      cases choice with
      | resume thread =>
          simp only [Choice.run, Option.bind_eq_bind, Option.bind_eq_some_iff] at first
          obtain ⟨⟨reached, delay⟩, resumes, first⟩ := first
          split at first
          · rename_i passed
            cases first
            have backsNext : known.Backs reached.ramData := by
              rw [Pe.resume_ramData resumes]
              exact backs
            obtain ⟨run, final⟩ := inductionHypothesis later laterAnswers backsNext ran
            exact ⟨.head (resumed thread (by simp) _ _ _ resumes passed) run, final⟩
          · cases first
      | answer i =>
          obtain ⟨answers, backsNext⟩ := Pe.answerFrom_answer backs first
          obtain ⟨run, final⟩ := inductionHypothesis later laterAnswers backsNext ran
          exact ⟨.head (answered i (by simp) _ _ answers) run, final⟩

end Sound

/-! ### The start of a search -/

section Start

variable {g : Graph} {startIdx : Nat} {ram0 ramData : List Byte}

/-- The depths, the row pointers and the columns, as they are when a search starts. -/
def startKnown (g : Graph) (startIdx : Nat) : Known := fun addr =>
  let rpao := (g.vertices.map (·.outDeg)).scanl (· + ·) 0
  let ciao := g.vertices.flatMap (·.outVid)
  if addr < g.vertexNum then some (if addr = startIdx then 0 else -1)
  else if (Gl.layout g).rpaoMemAddr ≤ addr ∧ addr < (Gl.layout g).rpaoMemAddr + 4 * rpao.length then
    ((rpao.map Int.ofNat).flatMap intBytes)[addr - (Gl.layout g).rpaoMemAddr]?
  else if (Gl.layout g).ciaoMemAddr ≤ addr ∧ addr < (Gl.layout g).ciaoMemAddr + 4 * ciao.length then
    ((ciao.map Int.ofNat).flatMap intBytes)[addr - (Gl.layout g).ciaoMemAddr]?
  else none

theorem startKnown_backs (laidOut : LaidOut g ram0)
    (depths : ∀ v, v < g.vertexNum → ram0[v]? = some (-1)) (vertex : startIdx < g.vertexNum)
    (started : setNewStartVertex (Gl.layout g) startIdx ram0 = some ramData) :
    (startKnown g startIdx).Backs ramData := by
  have origin : (Gl.layout g).depthMemAddr = 0 := rfl
  obtain ⟨_, contents⟩ := updateRam_spec started
  have kept : ∀ addr, addr ≠ startIdx → ramData[addr]? = ram0[addr]? := fun addr other => by
    rw [contents, if_neg (by simp [charBytes]; omega)]
  obtain ⟨before, _⟩ := laidOut.behind
  intro addr byte known
  simp only [startKnown] at known
  split at known
  · rename_i inside
    split at known
    · rename_i here
      rw [contents, if_pos (by simp [charBytes]; omega), ← known, here, origin, Nat.zero_add,
        Nat.sub_self]
      rfl
    · rename_i other
      rw [kept addr other, depths addr inside, known]
  split at known
  · rename_i pointer
    obtain ⟨k, rfl⟩ := Nat.exists_eq_add_of_le pointer.1
    rw [kept _ (by omega), ← known, Nat.add_sub_cancel_left]
    exact laidOut.rpao k (by omega)
  split at known
  · rename_i column
    obtain ⟨k, rfl⟩ := Nat.exists_eq_add_of_le column.1
    rw [kept _ (by omega), ← known, Nat.add_sub_cancel_left]
    exact laidOut.ciao k (by omega)
  · cases known

def startRam (g : Graph) (startIdx : Nat) : List Byte :=
  ((ramInit g).bind (setNewStartVertex (Gl.layout g) startIdx)).getD []

theorem startRam_started {isUgraph : Bool} {edges : List (Nat × Nat)}
    (loaded : loadGraph isUgraph (pairRows edges) = some g)
    (fits : (Gl.layout g).ramEnd ≤ g.edgeNum * 4 * 4) (size : g.edgeNum * 4 * 4 < 2 ^ 31)
    (vertex : startIdx < g.vertexNum) : ∃ ram0, ramInit g = some ram0 ∧
      setNewStartVertex (Gl.layout g) startIdx ram0 = some (startRam g startIdx) := by
  obtain ⟨ram0, ramData, initialized, _, started⟩ := exists_started loaded fits size vertex
  have same : startRam g startIdx = ramData := by
    rw [startRam, initialized, Option.bind_some, started, Option.getD_some]
  exact ⟨ram0, initialized, same ▸ started⟩

end Start

/-! ### The hub -/

def hubKnown : Known := startKnown hub 0

def hubRam : List Byte := startRam hub 0

theorem hub_started : ∃ ram0, ramInit hub = some ram0 ∧
    setNewStartVertex (Gl.layout hub) 0 ram0 = some hubRam :=
  startRam_started hub_loaded (by decide +kernel) (by decide) (by decide)

theorem hub_backed : ∃ ram0, ramInit hub = some ram0 ∧ hubRam.length = ram0.length ∧
    (∀ addr, hub.vertexNum ≤ addr → hubRam[addr]? = ram0[addr]?) ∧ hubKnown.Backs hubRam := by
  have vertices := (loadGraph_builtFrom hub_loaded).vertices_length
  obtain ⟨ram0, initialized, started⟩ := hub_started
  obtain ⟨laidOut, depths⟩ := ramInit_spec vertices (loadGraph_outgoing hub_loaded) initialized
  obtain ⟨sameLength, contents⟩ := updateRam_spec started
  refine ⟨ram0, initialized, sameLength, fun addr behind => ?_,
    startKnown_backs laidOut depths (by decide) started⟩
  have origin : (Gl.layout hub).depthMemAddr = 0 := rfl
  have two : hub.vertexNum = 2 := rfl
  rw [contents, if_neg (by simp [charBytes]; omega)]

attribute [irreducible] hubRam

theorem hubRam_shown : hubRam = hubKnown.shown 516 hubRam := by
  obtain ⟨_, _, _, _, backs⟩ := hub_backed
  have last : hubRam[515]? = some 0 := backs 515 0 rfl
  exact (backs.shown (List.getElem?_eq_some_iff.mp last).1).symm

def hubLevel : List Choice :=
  [.resume (.issueInspectDepthReadReq 3), .resume (.issueInspectDepthReadReq 3),
    .resume .sendMemReq, .answer 3, .resume .getMemResp, .resume (.processInspectDepthReadResp 3),
    .resume (.processInspectDepthReadResp 3), .resume .inspectDepthAnalysis,
    .resume .inspectDepthAnalysis, .resume .frontierAnalysis, .resume .frontierAnalysis,
    .resume .sendMemReq, .answer 4, .resume .getMemResp, .resume .processExpandRpaoReadResp,
    .resume .processExpandRpaoReadResp, .resume .issueExpandCiaoReadReq,
    .resume .issueExpandCiaoReadReq, .resume .sendMemReq, .answer 5, .resume .getMemResp,
    .resume .processExpandCiaoReadResp, .resume .processExpandCiaoReadResp,
    .resume .issueExpandDepthReadReq, .resume .issueExpandDepthReadReq, .resume .sendMemReq,
    .answer 6, .resume .getMemResp, .resume .processExpandDepthReadResp,
    .resume .processExpandDepthReadResp, .resume .expandDepthAnalysis,
    .resume .expandDepthAnalysis, .resume .sendMemReq, .answer 7, .resume .getMemResp,
    .resume .processExpandDepthWriteResp]

def hubSearch : List Choice := List.replicate 10 (.resume .bfsController) ++ hubLevel

end GraphAccelerator
