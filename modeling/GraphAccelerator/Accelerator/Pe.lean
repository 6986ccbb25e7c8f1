import Mathlib.Data.Fin.Tuple.Basic
import Mathlib.Data.List.FinRange
import GraphAccelerator.Library.Kernel
import GraphAccelerator.Accelerator.Ram

/-!
# The accelerator

The threads of `pe` search level by level: four of them inspect the depth array for
the frontier, the others expand it through the row pointers, the columns and the
depths of the neighbours.  A definition below is what a thread does from one `wait`
to the next; what it keeps on its stack over a `wait` is a field of `Pe`.  Bursts are
answered in the order of their port; their basic requests concern the wrapper only.
`none` stands for an access outside a vector or a call of `exit`.
-/

namespace GraphAccelerator

open CheckedLoop Memory

/-- One of the `PRNUM` partitions of the depth array. -/
abbrev Part := Fin 4

/-- Partitions are written as numerals. -/
instance Part.neZero : NeZero 4 := ⟨by decide⟩

def Part.port (prIdx : Part) : Port := ⟨prIdx.val, by omega⟩

namespace Gl

def baseLen : Nat := 1024
def depthBufferDepth : Nat := 4096
def rpaoBufferDepth : Nat := 4096
def ciaoBufferDepth : Nat := 4096
def frontierBufferDepth : Nat := 4096

/-- `maxLen` of the four inspection threads; the last one takes the rest. -/
def maxLen (gl : Gl) (prIdx : Part) : Nat :=
  if prIdx.val < 3 then gl.vertexNum / 4 else gl.vertexNum - 3 * (gl.vertexNum / 4)

/-- `baseDepthMemAddr` of the four inspection threads; only the first one adds the
address of the array. -/
def baseDepthMemAddr (gl : Gl) (prIdx : Part) : Nat :=
  if prIdx.val = 0 then gl.depthMemAddr else prIdx.val * (gl.vertexNum / 4)

end Gl

/-- The variables of `inspectDepthReqThread`; `actualLen` lives in `createReadBurstReq`
only and is 0 outside it. -/
structure InspectReq where
  depthMemAddr : Nat := 0
  currentLen : Nat
  actualLen : Nat := 0
  deriving DecidableEq, Repr

structure CiaoReq where
  ciaoMemAddr : Int := 0
  maxLen : Nat := 0
  len : Nat := 0
  actualLen : Nat := 0
  deriving DecidableEq, Repr

/-- The bursts of `GL` with their counter and the queues of `pe`, and per port the bursts that were sent
and those that were answered and not read yet.  `creating` is the burst of a thread
that waits in `createReadBurstReq` or `createWriteBurstReq`, `transfer` the burst that
a response thread is copying; every port has one thread for its requests and one for
its responses. -/
structure BurstQueues where
  burstReqQueue : Port → List Nat := fun _ => []
  burstRespQueue : Port → List Nat := fun _ => []
  burstOpStatus : List Nat := []
  creating : Port → Option Nat := fun _ => none
  transfer : Port → Option Nat := fun _ => none
  burstIdx : Int := -1
  bursts : List BurstOp := []
  sent : Port → List Nat := fun _ => []
  answered : Port → List Nat := fun _ => []
  counted : burstIdx + 1 = bursts.length := by rfl

structure Pe extends BurstQueues where
  level : Byte := 0
  frontierSize : Nat := 0
  bfsIterationStart : Bool := false
  localCounter : Nat := 0
  bfsDone : Bool := false
  depthBuffer0 : Part → List Byte := fun _ => []
  depthBuffer1 : List Byte := []
  depthBuffer2 : List Byte := []
  frontierBuffer : List Int := []
  rpaoBuffer : List Int := []
  ciaoBuffer : List Int := []
  vidxBuffer : List Int := []
  inspectReq : Part → InspectReq
  idx : Part → Nat
  validFlag2 : Bool := false
  ciaoReq : CiaoReq := {}
  ramData : List Byte

namespace Pe

/-- The number that `GL::getBurstIdx` returns, a position in `GL::bursts`. -/
def getBurstIdx (pe : Pe) : Nat := (pe.burstIdx + 1).toNat

theorem burstIdx_eq (pe : Pe) : pe.burstIdx + 1 = pe.bursts.length := pe.counted

theorem getBurstIdx_eq (pe : Pe) : pe.getBurstIdx = pe.bursts.length := by
  rw [getBurstIdx, pe.counted, Int.toNat_natCast]

abbrev setBurst (burstIdx : Nat) (op : BurstOp) (pe : Pe) : Pe :=
  { pe with
    bursts := pe.bursts.set burstIdx op
    counted := by simp [pe.counted] }

/-- The first half of `createReadBurstReq` and `createWriteBurstReq`, up to the
`wait`. -/
def createBurst (type : RequestType) (portIdx : Port) (addr : Int) (length : Nat) (pe : Pe) :
    Option Pe := do
  let addr ← addr.toNat?
  let burstIdx := pe.getBurstIdx
  return { pe with
    burstIdx := pe.burstIdx + 1
    bursts := pe.bursts ++ [{ type, portIdx, burstIdx, peIdx := 0, addr, length }]
    creating := Function.update pe.creating portIdx (some burstIdx)
    counted := by simp [pe.counted] }

/-- The second half and what every caller does next:
`burstOpStatus[burstIdx] = false`. -/
def pushBurst (portIdx : Port) (burstIdx : Nat) (pe : Pe) : Pe :=
  { pe with
    burstReqQueue := Function.update pe.burstReqQueue portIdx
      (pe.burstReqQueue portIdx ++ [burstIdx])
    creating := Function.update pe.creating portIdx none
    burstOpStatus := pe.burstOpStatus.insert burstIdx }

/-! ### Inspection -/

section Inspection

variable (gl : Gl) (prIdx : Part)

/-- The inner loop of `inspectDepthReqThread` up to the next `wait` of the thread. -/
def inspectDepthReqLoop (pe : Pe) : Option Pe :=
  let r := pe.inspectReq prIdx
  if r.currentLen < gl.maxLen prIdx then
    let actualLen := if r.currentLen + Gl.baseLen > gl.maxLen prIdx
      then gl.maxLen prIdx - r.currentLen else Gl.baseLen
    if (pe.depthBuffer0 prIdx).length + actualLen > Gl.depthBufferDepth then some pe
    else createBurst .read prIdx.port r.depthMemAddr actualLen { pe with
      inspectReq := Function.update pe.inspectReq prIdx { r with actualLen } }
  else some pe

/-- The thread leaves its inner loop when `currentLen` reaches `maxLen`. -/
def inspectDepthReqThread (pe : Pe) : Option (Pe × Nat) := do
  let r := pe.inspectReq prIdx
  match pe.creating prIdx.port with
  | some burstIdx =>
      let pe := { pe.pushBurst prIdx.port burstIdx with
        inspectReq := Function.update pe.inspectReq prIdx { r with
          depthMemAddr := r.depthMemAddr + r.actualLen
          currentLen := r.currentLen + r.actualLen
          actualLen := 0 } }
      return (← pe.inspectDepthReqLoop gl prIdx, 1)
  | none =>
      let pe := if gl.maxLen prIdx ≤ r.currentLen && pe.bfsIterationStart then { pe with
          inspectReq := Function.update pe.inspectReq prIdx { r with
            depthMemAddr := gl.baseDepthMemAddr prIdx
            currentLen := 0
            actualLen := 0 } }
        else pe
      return (← pe.inspectDepthReqLoop gl prIdx, 1)

/-- `burstReqToBuffer<char>` -/
def toBytes (op : BurstOp) : Option (List Byte) :=
  (List.range op.length).mapM fun i => op.data[i]?

/-- `burstReqToBuffer<int>` -/
def toWords (op : BurstOp) : Option (List Int) :=
  if op.length % 4 ≠ 0 then none else (toBytes op).map toInts

/-- The rest of the loop of a response thread: waits for the next burst, or for one
cycle per entry of the burst at the head of the queue. -/
def awaitResp (portIdx : Port) (size : Nat) (pe : Pe) : Option (Pe × Nat) :=
  match pe.burstRespQueue portIdx with
  | [] => some ({ pe with transfer := Function.update pe.transfer portIdx none }, 1)
  | burstIdx :: _ => do
      let op ← pe.bursts[burstIdx]?
      return ({ pe with transfer := Function.update pe.transfer portIdx (some burstIdx) },
        op.length / size)

/-- A response thread: erases the status of the burst in transfer, removes it from the
queue and copies it to its buffer by `store`. -/
def respThread (portIdx : Port) (size : Nat) (store : BurstOp → Pe → Option Pe) (pe : Pe) :
    Option (Pe × Nat) :=
  match pe.transfer portIdx with
  | none => pe.awaitResp portIdx size
  | some burstIdx => do
      let op ← pe.bursts[burstIdx]?
      let pe ← store op { pe with
        burstOpStatus := pe.burstOpStatus.erase burstIdx
        burstRespQueue := Function.update pe.burstRespQueue portIdx
          (pe.burstRespQueue portIdx).tail
        transfer := Function.update pe.transfer portIdx none }
      awaitResp portIdx size pe

def storeInspect (op : BurstOp) (pe : Pe) : Option Pe := do
  let bytes ← toBytes op
  return { pe with
    depthBuffer0 := Function.update pe.depthBuffer0 prIdx (pe.depthBuffer0 prIdx ++ bytes) }

def inspectDepthRespThread (pe : Pe) : Option (Pe × Nat) :=
  pe.respThread prIdx.port 1 (storeInspect prIdx)

def resetIdx (prIdx : Part) : Nat := prIdx.val * (gl.vertexNum / 4)

/-- One partition in the loop of `inspectDepthAnalysis`. -/
def inspectDepth (pe : Pe) (i : Part) : Pe :=
  match pe.depthBuffer0 i with
  | [] => pe
  | d :: rest =>
      let pe := { pe with depthBuffer0 := Function.update pe.depthBuffer0 i rest }
      let pe := if d = pe.level then { pe with
          frontierBuffer := pe.frontierBuffer ++ [(pe.idx i : Int)]
          frontierSize := pe.frontierSize + 1 }
        else pe
      { pe with idx := Function.update pe.idx i (pe.idx i + 1) }

def allAnalyzed (pe : Pe) : Bool :=
  (List.finRange 4).all fun i =>
    if i.val < 3 then pe.idx i == (i.val + 1) * (gl.vertexNum / 4) else pe.idx i == gl.vertexNum

/-- The end of the search is an empty frontier after all depths were analysed. -/
def checkDone (pe : Pe) : Pe :=
  if pe.allAnalyzed gl && pe.validFlag2 then
    { pe with
      validFlag2 := false
      bfsDone := if pe.frontierSize = 0 then true else pe.bfsDone }
  else pe

def inspectDepthAnalysis (pe : Pe) : Option (Pe × Nat) :=
  let pe := if pe.bfsIterationStart then { pe with
      idx := resetIdx gl
      validFlag2 := true
      frontierSize := 0 }
    else pe
  let notEmpty := (List.finRange 4).any fun i => !(pe.depthBuffer0 i).isEmpty
  let pe := if notEmpty && pe.frontierBuffer.length < Gl.frontierBufferDepth then
      (List.finRange 4).foldl inspectDepth pe
    else pe
  some (pe.checkDone gl, 1)

end Inspection

/-! ### Expansion -/

section Expansion

variable (gl : Gl)

/-- The loop of `frontierAnalysis` up to its next `wait`. -/
def frontierLoop (pe : Pe) : Option Pe :=
  match pe.frontierBuffer with
  | vidx :: rest =>
      if pe.rpaoBuffer.length + 2 < Gl.rpaoBufferDepth then
        createBurst .read 4 (gl.rpaoMemAddr + vidx * 4) 8 { pe with frontierBuffer := rest }
      else some pe
  | [] => some pe

def frontierAnalysis (pe : Pe) : Option (Pe × Nat) := do
  match pe.creating 4 with
  | some burstIdx => return (← (pe.pushBurst 4 burstIdx).frontierLoop gl, 1)
  | none => return (← pe.frontierLoop gl, 1)

def storeRpao (op : BurstOp) (pe : Pe) : Option Pe := do
  return { pe with rpaoBuffer := pe.rpaoBuffer ++ (← toWords op) }

def processExpandRpaoReadResp (pe : Pe) : Option (Pe × Nat) :=
  pe.respThread 4 4 storeRpao

/-- The inner loop of `issueExpandCiaoReadReq` up to its next `wait`, when
`len < maxLen`. -/
def ciaoChunk (pe : Pe) : Option Pe :=
  let r := pe.ciaoReq
  let actualLen := if r.len + Gl.baseLen > r.maxLen then r.maxLen - r.len else Gl.baseLen
  if pe.ciaoBuffer.length + actualLen / 4 < Gl.ciaoBufferDepth then
    createBurst .read 5 r.ciaoMemAddr actualLen { pe with ciaoReq := { r with actualLen } }
  else some pe

/-- The outer loop of `issueExpandCiaoReadReq` over the pairs in `rpaoBuffer`: a vertex
without neighbours takes no time. -/
def ciaoRows (pe : Pe) : List Int → Option Pe
  | srcIdx :: dstIdx :: rest =>
      let maxLen := (4 * (dstIdx - srcIdx)).toNat
      let pe := { pe with
        rpaoBuffer := rest
        ciaoReq := { ciaoMemAddr := gl.ciaoMemAddr + srcIdx * 4, maxLen } }
      if 0 < maxLen then pe.ciaoChunk else ciaoRows pe rest
  | _ => some pe

/-- The loops of `issueExpandCiaoReadReq` up to its next `wait`. -/
def ciaoLoop (pe : Pe) : Option Pe :=
  if pe.ciaoReq.len < pe.ciaoReq.maxLen then pe.ciaoChunk else pe.ciaoRows gl pe.rpaoBuffer

def issueExpandCiaoReadReq (pe : Pe) : Option (Pe × Nat) := do
  match pe.creating 5 with
  | some burstIdx =>
      let pe := { pe.pushBurst 5 burstIdx with
        ciaoReq := { pe.ciaoReq with
          ciaoMemAddr := pe.ciaoReq.ciaoMemAddr + pe.ciaoReq.actualLen
          len := pe.ciaoReq.len + pe.ciaoReq.actualLen
          actualLen := 0 } }
      return (← pe.ciaoLoop gl, 1)
  | none => return (← pe.ciaoLoop gl, 1)

def storeCiao (op : BurstOp) (pe : Pe) : Option Pe := do
  return { pe with ciaoBuffer := pe.ciaoBuffer ++ (← toWords op) }

def processExpandCiaoReadResp (pe : Pe) : Option (Pe × Nat) :=
  pe.respThread 5 4 storeCiao

/-- The loop of `issueExpandDepthReadReq` up to its next `wait`. -/
def depthLoop (pe : Pe) : Option Pe :=
  match pe.ciaoBuffer with
  | vidx :: rest =>
      if pe.ciaoBuffer.length < Gl.depthBufferDepth then
        createBurst .read 6 (gl.depthMemAddr + vidx) 1 { pe with
          vidxBuffer := pe.vidxBuffer ++ [vidx]
          ciaoBuffer := rest }
      else some pe
  | [] => some pe

def issueExpandDepthReadReq (pe : Pe) : Option (Pe × Nat) := do
  match pe.creating 6 with
  | some burstIdx => return (← (pe.pushBurst 6 burstIdx).depthLoop gl, 1)
  | none => return (← pe.depthLoop gl, 1)

def storeDepth (op : BurstOp) (pe : Pe) : Option Pe := do
  return { pe with depthBuffer1 := pe.depthBuffer1 ++ (← toBytes op) }

def processExpandDepthReadResp (pe : Pe) : Option (Pe × Nat) :=
  pe.respThread 6 1 storeDepth

/-- The loop of `expandDepthAnalysis` up to its next `wait`, over `depthBuffer1`: only
an unvisited vertex takes time. -/
def expandLoop (pe : Pe) : List Byte → Option Pe
  | [] => some pe
  | d :: rest =>
      if pe.depthBuffer2.length ≤ Gl.depthBufferDepth then
        match pe.vidxBuffer with
        | [] => none
        | vidx :: vidxs =>
            let pe := { pe with depthBuffer1 := rest, vidxBuffer := vidxs }
            if d = -1 then
              createBurst .write 7 (gl.depthMemAddr + vidx) 1 { pe with
                depthBuffer2 := pe.depthBuffer2 ++ [pe.level + 1] }
            else expandLoop pe rest
      else some pe

/-- `bufferToBurstReq<char>` for a burst of one byte. -/
def fillBurst (burstIdx : Nat) (pe : Pe) : Option Pe := do
  let op ← pe.bursts[burstIdx]?
  let byte ← pe.depthBuffer2.head?
  return { pe.setBurst burstIdx { op with data := op.data ++ [byte] } with
    depthBuffer2 := pe.depthBuffer2.tail }

def expandDepthAnalysis (pe : Pe) : Option (Pe × Nat) := do
  match pe.creating 7 with
  | some burstIdx =>
      let pe := (← pe.fillBurst burstIdx).pushBurst 7 burstIdx
      return (← pe.expandLoop gl pe.depthBuffer1, 1)
  | none => return (← pe.expandLoop gl pe.depthBuffer1, 1)

/-- Takes all responses at once: nothing in the loop waits while there is one. -/
def processExpandDepthWriteResp (pe : Pe) : Option (Pe × Nat) :=
  some ({ pe with
    burstOpStatus := (pe.burstRespQueue 7).foldl List.erase pe.burstOpStatus
    burstRespQueue := Function.update pe.burstRespQueue 7 [] }, 1)

end Expansion

/-! ### Control -/

def isEndOfBfsIteration (pe : Pe) : Bool :=
  ((List.finRange 8).all fun i => (pe.burstReqQueue i).isEmpty) &&
    ((List.finRange 8).all fun i => (pe.burstRespQueue i).isEmpty) &&
    pe.burstOpStatus.isEmpty &&
    ((List.finRange 4).all fun i => (pe.depthBuffer0 i).isEmpty) &&
    pe.frontierBuffer.isEmpty && pe.rpaoBuffer.isEmpty && pe.ciaoBuffer.isEmpty &&
    pe.depthBuffer1.isEmpty && pe.depthBuffer2.isEmpty

/-- `localCounter` after its update. -/
def nextCounter (pe : Pe) : Nat :=
  if pe.localCounter < 20 then pe.localCounter + 1 else pe.localCounter

/-- `bfsController` goes on to the next level. -/
def endsLevel (pe : Pe) : Bool := pe.isEndOfBfsIteration && pe.nextCounter == 20

def bfsController (pe : Pe) : Pe :=
  let next := { pe with
    localCounter := pe.nextCounter
    bfsIterationStart := pe.nextCounter == 10 }
  if pe.endsLevel then { next with
      burstOpStatus := []
      level := pe.level + 1
      localCounter := 0 }
  else next

/-! ### Transport -/

/-- Sends the head of the queue of every port. -/
def sendMemReq (pe : Pe) : Pe :=
  { pe with
    sent := fun i => pe.sent i ++ (pe.burstReqQueue i).take 1
    burstReqQueue := fun i => (pe.burstReqQueue i).tail }

/-- Reads one answer on every port. -/
def getMemResp (pe : Pe) : Pe :=
  { pe with
    burstRespQueue := fun i => pe.burstRespQueue i ++ (pe.answered i).take 1
    answered := fun i => (pe.answered i).tail }

/-- The memory answers the oldest burst of a port. -/
def answer (i : Port) (pe : Pe) : Option Pe :=
  match pe.sent i with
  | [] => none
  | burstIdx :: rest => do
      let op ← pe.bursts[burstIdx]?
      let moved := { pe with
        sent := Function.update pe.sent i rest
        answered := Function.update pe.answered i (pe.answered i ++ [burstIdx]) }
      if op.type = .write then
        return { moved with ramData := ← op.reqToRam pe.ramData }
      else
        return moved.setBurst burstIdx (← op.ramToReq pe.ramData)

end Pe

inductive PeThread where
  | sendMemReq
  | getMemResp
  | issueInspectDepthReadReq (prIdx : Part)
  | processInspectDepthReadResp (prIdx : Part)
  | inspectDepthAnalysis
  | frontierAnalysis
  | processExpandRpaoReadResp
  | issueExpandCiaoReadReq
  | processExpandCiaoReadResp
  | issueExpandDepthReadReq
  | processExpandDepthReadResp
  | expandDepthAnalysis
  | processExpandDepthWriteResp
  | bfsController
  deriving DecidableEq, Repr

namespace Pe

/-- What a thread does between two waits, and for how many cycles it waits then. -/
def resume (gl : Gl) : PeThread → Pe → Option (Pe × Nat)
  | .sendMemReq, pe => some (pe.sendMemReq, 1)
  | .getMemResp, pe => some (pe.getMemResp, 1)
  | .issueInspectDepthReadReq prIdx, pe => pe.inspectDepthReqThread gl prIdx
  | .processInspectDepthReadResp prIdx, pe => pe.inspectDepthRespThread prIdx
  | .inspectDepthAnalysis, pe => pe.inspectDepthAnalysis gl
  | .frontierAnalysis, pe => pe.frontierAnalysis gl
  | .processExpandRpaoReadResp, pe => pe.processExpandRpaoReadResp
  | .issueExpandCiaoReadReq, pe => pe.issueExpandCiaoReadReq gl
  | .processExpandCiaoReadResp, pe => pe.processExpandCiaoReadResp
  | .issueExpandDepthReadReq, pe => pe.issueExpandDepthReadReq gl
  | .processExpandDepthReadResp, pe => pe.processExpandDepthReadResp
  | .expandDepthAnalysis, pe => pe.expandDepthAnalysis gl
  | .processExpandDepthWriteResp, pe => pe.processExpandDepthWriteResp
  | .bfsController, pe => some (pe.bfsController, 1)

end Pe

end GraphAccelerator
