import GraphAccelerator.Accelerator.Pe

/-!
# The pipeline without its schedule

What the threads do to the buffers and to the bursts in flight, one item at a time: a
vertex, a pair of row pointers, a burst or a depth moves from one stage to the next.
Threads, capacities and the queues a burst passes on its way to the memory and back
are gone.  A step may be taken whenever there is an item to take.
-/

namespace GraphAccelerator

open Memory

/-- The bursts of a port: those that are answered, those the memory has still to
answer, both from the oldest on, and the one that is not in a queue yet. -/
structure Line where
  responded : List BurstOp := []
  waiting : List BurstOp := []
  asked : Option BurstOp := none

def Line.ops (line : Line) : List BurstOp :=
  line.responded ++ line.waiting ++ line.asked.toList

/-- The part of an array that is still to be read. -/
structure Span where
  addr : Int
  left : Nat

structure Pipeline where
  ramData : List Byte
  frontierSize : Nat
  depthBuffer0 : Part → List Byte
  depthBuffer1 : List Byte
  depthBuffer2 : List Byte
  frontierBuffer : List Int
  rpaoBuffer : List Int
  ciaoBuffer : List Int
  vidxBuffer : List Int
  idx : Part → Nat
  span : Part → Span
  row : Span
  lines : Port → Line

namespace Pipeline

structure Asks (op : BurstOp) (type : RequestType) (addr : Int) (length : Nat) : Prop where
  type : op.type = type
  addr : (op.addr : Int) = addr
  length : op.length = length
  data : op.data = []

def setLine (i : Port) (line : Line) (p : Pipeline) : Pipeline :=
  { p with lines := Function.update p.lines i line }

def ask (i : Port) (op : BurstOp) (p : Pipeline) : Pipeline :=
  p.setLine i { p.lines i with asked := some op }

def push (i : Port) (op : BurstOp) (p : Pipeline) : Pipeline :=
  p.setLine i { p.lines i with waiting := (p.lines i).waiting ++ [op], asked := none }

def respond (i : Port) (op : BurstOp) (p : Pipeline) : Pipeline :=
  p.setLine i { p.lines i with
    responded := (p.lines i).responded ++ [op]
    waiting := (p.lines i).waiting.tail }

def take (i : Port) (p : Pipeline) : Pipeline :=
  p.setLine i { p.lines i with responded := (p.lines i).responded.tail }

def inspect (level : Byte) (i : Part) (d : Byte) (rest : List Byte) (p : Pipeline) : Pipeline :=
  { p with
    depthBuffer0 := Function.update p.depthBuffer0 i rest
    frontierBuffer := p.frontierBuffer ++ if d = level then [(p.idx i : Int)] else []
    frontierSize := p.frontierSize + if d = level then 1 else 0
    idx := Function.update p.idx i (p.idx i + 1) }

/-- One item moves on.  Only where `start` holds, an inspection begins. -/
inductive Step (gl : Gl) (level : Byte) (start : Bool) : Pipeline → Pipeline → Prop
  | askInspect {p : Pipeline} {i : Part} {op : BurstOp} {length : Nat} :
      (p.lines i.port).asked = none → Asks op .read (p.span i).addr length →
      length ≤ (p.span i).left →
      Step gl level start p (ask i.port op { p with
        span := Function.update p.span i ⟨(p.span i).addr + length, (p.span i).left - length⟩ })
  | askRpao {p : Pipeline} {vidx : Int} {rest : List Int} {op : BurstOp} :
      (p.lines 4).asked = none → p.frontierBuffer = vidx :: rest →
      Asks op .read (gl.rpaoMemAddr + vidx * 4) 8 →
      Step gl level start p (ask 4 op { p with frontierBuffer := rest })
  | takeRow {p : Pipeline} {srcIdx dstIdx : Int} {rest : List Int} :
      p.row.left = 0 → p.rpaoBuffer = srcIdx :: dstIdx :: rest →
      Step gl level start p { p with
        rpaoBuffer := rest
        row := ⟨gl.ciaoMemAddr + srcIdx * 4, (4 * (dstIdx - srcIdx)).toNat⟩ }
  | askCiao {p : Pipeline} {op : BurstOp} {length : Nat} :
      (p.lines 5).asked = none → length = min Gl.baseLen p.row.left →
      Asks op .read p.row.addr length →
      Step gl level start p (ask 5 op { p with
        row := ⟨p.row.addr + length, p.row.left - length⟩ })
  | askDepth {p : Pipeline} {vidx : Int} {rest : List Int} {op : BurstOp} :
      (p.lines 6).asked = none → p.ciaoBuffer = vidx :: rest →
      Asks op .read (gl.depthMemAddr + vidx) 1 →
      Step gl level start p (ask 6 op { p with
        vidxBuffer := p.vidxBuffer ++ [vidx]
        ciaoBuffer := rest })
  | expandOld {p : Pipeline} {d : Byte} {rest : List Byte} {vidx : Int} {vidxs : List Int} :
      p.depthBuffer1 = d :: rest → p.vidxBuffer = vidx :: vidxs → d ≠ -1 →
      Step gl level start p { p with depthBuffer1 := rest, vidxBuffer := vidxs }
  | expandNew {p : Pipeline} {rest : List Byte} {vidx : Int} {vidxs : List Int} {op : BurstOp} :
      (p.lines 7).asked = none → p.depthBuffer1 = -1 :: rest → p.vidxBuffer = vidx :: vidxs →
      Asks op .write (gl.depthMemAddr + vidx) 1 →
      Step gl level start p (ask 7 op { p with
        depthBuffer1 := rest
        vidxBuffer := vidxs
        depthBuffer2 := p.depthBuffer2 ++ [level + 1] })
  | push {p : Pipeline} {i : Port} {op : BurstOp} :
      i ≠ 7 → (p.lines i).asked = some op → Step gl level start p (p.push i op)
  | fill {p : Pipeline} {op : BurstOp} {byte : Byte} {rest : List Byte} :
      (p.lines 7).asked = some op → p.depthBuffer2 = byte :: rest →
      Step gl level start p
        (push 7 { op with data := op.data ++ [byte] } { p with depthBuffer2 := rest })
  | read {p : Pipeline} {i : Port} {op copied : BurstOp} {rest : List BurstOp} :
      (p.lines i).waiting = op :: rest → op.type ≠ .write →
      op.ramToReq p.ramData = some copied →
      Step gl level start p (p.respond i copied)
  | write {p : Pipeline} {i : Port} {op : BurstOp} {rest : List BurstOp} {ramData : List Byte} :
      (p.lines i).waiting = op :: rest → op.type = .write →
      op.reqToRam p.ramData = some ramData →
      Step gl level start p (respond i op { p with ramData })
  | storeInspect {p : Pipeline} {i : Part} {op : BurstOp} {rest : List BurstOp}
      {bytes : List Byte} :
      (p.lines i.port).responded = op :: rest → Pe.toBytes op = some bytes →
      Step gl level start p (take i.port { p with
        depthBuffer0 := Function.update p.depthBuffer0 i (p.depthBuffer0 i ++ bytes) })
  | storeRpao {p : Pipeline} {op : BurstOp} {rest : List BurstOp} {words : List Int} :
      (p.lines 4).responded = op :: rest → Pe.toWords op = some words →
      Step gl level start p (take 4 { p with rpaoBuffer := p.rpaoBuffer ++ words })
  | storeCiao {p : Pipeline} {op : BurstOp} {rest : List BurstOp} {words : List Int} :
      (p.lines 5).responded = op :: rest → Pe.toWords op = some words →
      Step gl level start p (take 5 { p with ciaoBuffer := p.ciaoBuffer ++ words })
  | storeDepth {p : Pipeline} {op : BurstOp} {rest : List BurstOp} {bytes : List Byte} :
      (p.lines 6).responded = op :: rest → Pe.toBytes op = some bytes →
      Step gl level start p (take 6 { p with depthBuffer1 := p.depthBuffer1 ++ bytes })
  | dropWrite {p : Pipeline} {op : BurstOp} {rest : List BurstOp} :
      (p.lines 7).responded = op :: rest → Step gl level start p (p.take 7)
  | inspect {p : Pipeline} {i : Part} {d : Byte} {rest : List Byte} :
      p.depthBuffer0 i = d :: rest → Step gl level start p (p.inspect level i d rest)
  | restart {p : Pipeline} {i : Part} :
      start = true → (p.span i).left = 0 → Step gl level start p { p with
        span := Function.update p.span i ⟨gl.baseDepthMemAddr i, gl.maxLen i⟩ }
  | resetIdx {p : Pipeline} :
      start = true →
      Step gl level start p { p with idx := Pe.resetIdx gl, frontierSize := 0 }

end Pipeline

end GraphAccelerator
