import Mathlib.Tactic.Ring
import Mathlib.Tactic.Linarith
import GraphAccelerator.Library.Loop

/-!
# Bursts and basic requests

A burst of the accelerator is split into basic requests of `burstLen` bytes.  The
arithmetic is that of the source: the address width of a burst is a parameter of its
own, so that the residue of an unaligned burst may be negative.  `none` stands for
an access outside a vector.
-/

namespace GraphAccelerator.Memory

open CheckedLoop

abbrev Port := Fin 8

/-- Ports are written as numerals. -/
instance Port.neZero : NeZero 8 := ⟨by decide⟩

abbrev Byte := BitVec 8

inductive RequestType where
  | read
  | write
  | refresh
  | powerdown
  | selfrefresh
  | extension
  | max
  deriving DecidableEq, Repr

structure UDF where
  burstIdx : Nat
  reqIdx : Nat
  peIdx : Nat
  portIdx : Port
  arriveMemTime : Int
  departMemTime : Int
  deriving DecidableEq, Repr

/-- A basic request.  `depart` is uninitialised in the source until it is set. -/
structure Request where
  type : RequestType
  addr : Nat
  udf : UDF
  arrive : Int := -1
  depart : Int := 0
  deriving DecidableEq, Repr

/-- Which request of which burst it is; everything else in a `UDF` may be updated on
the way through the memory. -/
structure Origin where
  burstIdx : Nat
  reqIdx : Nat
  portIdx : Port
  deriving DecidableEq, Repr

def UDF.origin (udf : UDF) : Origin := ⟨udf.burstIdx, udf.reqIdx, udf.portIdx⟩

def Request.payload (req : Request) : RequestType × Nat × Origin :=
  (req.type, req.addr, req.udf.origin)

structure BurstCfg where
  burstLen : Nat
  burstAddrWidth : Nat
  positive : 0 < burstLen

structure BurstOp where
  type : RequestType
  portIdx : Port
  burstIdx : Nat
  peIdx : Nat
  addr : Nat
  length : Nat
  reqVec : List Nat := []
  addrVec : List Nat := []
  departPeTime : Int := 0
  arriveMemTime : Int := 0
  departMemTime : Int := 0
  arrivePeTime : Int := 0
  data : List Byte := []
  deriving DecidableEq, Repr

namespace BurstOp

def getAlignedAddr (cfg : BurstCfg) (op : BurstOp) : Nat :=
  (op.addr >>> cfg.burstAddrWidth) <<< cfg.burstAddrWidth

def getOffset (cfg : BurstCfg) (op : BurstOp) : Int :=
  (op.addr : Int) - op.getAlignedAddr cfg

def getReqNum (cfg : BurstCfg) (op : BurstOp) : Int :=
  let burstLen : Int := cfg.burstLen
  let length : Int := op.length
  let offset := op.getOffset cfg
  if offset = 0 then
    if length.tmod burstLen = 0 then length.tdiv burstLen else length.tdiv burstLen + 1
  else
    let residueLen := burstLen - offset
    if length > residueLen then
      let residueLen := length - residueLen
      if residueLen.tmod burstLen = 0 then 1 + residueLen.tdiv burstLen
      else 1 + residueLen.tdiv burstLen + 1
    else 1

/-- Numbers the basic requests from `reqIdx` on, the number that `GL::getReqIdx` returns
next, and advances it. -/
def updateReqVec (cfg : BurstCfg) (reqIdx : Nat) (op : BurstOp) : BurstOp × Nat :=
  let reqNum := (op.getReqNum cfg).toNat
  ({ op with reqVec := op.reqVec ++ List.range' reqIdx reqNum }, reqIdx + reqNum)

/-- The loop of `updateAddrVec` for an unaligned address, over `reqAddr`, `reqLen` and
the addresses found so far.  `arith` is what becomes of the sum of two `int`s. -/
def addrLoop (arith : Int → Int) (cfg : BurstCfg) (length : Nat) (rounds : Nat)
    (start : Nat × Int × List Nat) : Option (Nat × Int × List Nat) :=
  whileDo (fun (_, reqLen, _) => reqLen < length)
    (fun (reqAddr, reqLen, addrVec) =>
      let reqAddr := reqAddr + cfg.burstLen
      let reqLen := arith (reqLen + cfg.burstLen)
      some (reqAddr, if reqLen ≤ length then reqLen else (length : Int), addrVec ++ [reqAddr]))
    rounds start

/-- More rounds than the loop can take. -/
def addrRounds (cfg : BurstCfg) (op : BurstOp) : Nat :=
  op.length + 2 ^ cfg.burstAddrWidth + 1

def updateAddrVecIn (arith : Int → Int) (cfg : BurstCfg) (op : BurstOp) : Option BurstOp := do
  if op.getOffset cfg = 0 then
    let addrs := (List.range (op.getReqNum cfg).toNat).map fun i => op.addr + i * cfg.burstLen
    return { op with addrVec := op.addrVec ++ addrs }
  else
    let reqAddr := op.getAlignedAddr cfg
    let (_, _, addrVec) ← addrLoop arith cfg op.length (op.addrRounds cfg)
      (reqAddr, cfg.burstLen - op.getOffset cfg, op.addrVec ++ [reqAddr])
    return { op with addrVec }

/-- `updateAddrVec` as long as nothing overflows. -/
def updateAddrVec (cfg : BurstCfg) (op : BurstOp) : Option BurstOp := op.updateAddrVecIn id cfg

/-- `updateAddrVec` in the arithmetic of `int`. -/
def updateAddrVecInt (cfg : BurstCfg) (op : BurstOp) : Option BurstOp :=
  op.updateAddrVecIn (fun sum => Int.bmod sum (2 ^ 32)) cfg

def basicReq (op : BurstOp) (addr reqIdx : Nat) : Request where
  type := op.type
  addr
  udf := {
    burstIdx := op.burstIdx
    reqIdx
    peIdx := op.peIdx
    portIdx := op.portIdx
    arriveMemTime := op.arriveMemTime
    departMemTime := op.departMemTime }

def convertToReq (cfg : BurstCfg) (op : BurstOp) : Option (List Request) :=
  (List.range (op.getReqNum cfg).toNat).mapM fun i => do
    return op.basicReq (← op.addrVec[i]?) (← op.reqVec[i]?)

/-- Copies the addressed bytes to the burst. -/
def ramToReq (op : BurstOp) (ramData : List Byte) : Option BurstOp := do
  let bytes ← (List.range op.length).mapM fun i => ramData[op.addr + i]?
  return { op with data := op.data ++ bytes }

/-- Copies the bytes of the burst to their addresses. -/
def reqToRam (op : BurstOp) (ramData : List Byte) : Option (List Byte) :=
  (List.range op.length).foldlM (fun ramData i => do
    let byte ← op.data[i]?
    let _ ← ramData[op.addr + i]?
    return ramData.set (op.addr + i) byte) ramData

structure WellFormed (cfg : BurstCfg) (op : BurstOp) : Prop where
  addrs : op.addrVec.length = (op.getReqNum cfg).toNat
  reqs : op.reqVec.length = (op.getReqNum cfg).toNat

/-- What the environment of a burst has asked for; the rest of a burst is time
stamps and data. -/
def shape (op : BurstOp) : BurstOp :=
  { op with
    departPeTime := 0
    arriveMemTime := 0
    departMemTime := 0
    arrivePeTime := 0
    data := [] }

end BurstOp

def newBurst (cfg : BurstCfg) (op : BurstOp) (reqIdx : Nat) : Option (BurstOp × Nat) := do
  let (op, reqIdx) := op.updateReqVec cfg reqIdx
  return (← op.updateAddrVec cfg, reqIdx)

section

variable {cfg : BurstCfg}

theorem getOffset_lt (cfg : BurstCfg) (op : BurstOp) :
    op.getOffset cfg < (2 ^ cfg.burstAddrWidth : Nat) := by
  have split := Nat.div_add_mod op.addr (2 ^ cfg.burstAddrWidth)
  have small := Nat.mod_lt op.addr (Nat.two_pow_pos cfg.burstAddrWidth)
  rw [BurstOp.getOffset, BurstOp.getAlignedAddr, Nat.shiftRight_eq_div_pow, Nat.shiftLeft_eq,
    Nat.mul_comm]
  omega

/-- What holds when the loop of `updateAddrVec` has run for `index` rounds: it has
pushed as many addresses, and its length has grown by one `burstLen` a round, up to
the length of the burst. -/
structure AddrInvariant (cfg : BurstCfg) (length : Nat) (residue : Int) (pushed : Nat)
    (index : Nat) (state : Nat × Int × List Nat) : Prop where
  count : state.2.2.length = pushed + index
  least : residue + index ≤ state.2.1
  unfinished : state.2.1 < length → state.2.1 = residue + index * cfg.burstLen
  finished : (length : Int) ≤ state.2.1 → (length : Int) ≤ residue + index * cfg.burstLen
  needed : 0 < index → residue + (index - 1 : Nat) * cfg.burstLen < length

def AddrExact (arith : Int → Int) (cfg : BurstCfg) (length : Nat) (residue : Int) : Prop :=
  ∀ index : Nat, residue + index * cfg.burstLen < length →
    arith (residue + index * cfg.burstLen + cfg.burstLen) =
      residue + index * cfg.burstLen + cfg.burstLen

theorem addrLoop_total {arith : Int → Int} {cfg : BurstCfg} {length : Nat} {residue : Int}
    (exact : AddrExact arith cfg length residue) (rounds : Nat)
    (enough : length - residue < rounds) (more : 0 < rounds) (reqAddr : Nat) (addrVec : List Nat) :
    ∃ final index,
      BurstOp.addrLoop arith cfg length rounds (reqAddr, residue, addrVec) = some final ∧
      final.2.2.length = addrVec.length + index ∧
      (length : Int) ≤ residue + index * cfg.burstLen ∧
      (0 < index → residue + (index - 1 : Nat) * cfg.burstLen < length) := by
  have positive : (1 : Int) ≤ cfg.burstLen := by have := cfg.positive; omega
  obtain ⟨final, ran, stopped, index, invariant⟩ := whileDo_total
    (fun (state : Nat × Int × List Nat) => decide (state.2.1 < length))
    (fun state => some (state.1 + cfg.burstLen,
      if arith (state.2.1 + cfg.burstLen) ≤ length then arith (state.2.1 + cfg.burstLen)
      else (length : Int),
      state.2.2 ++ [state.1 + cfg.burstLen]))
    (AddrInvariant cfg length residue addrVec.length) (length - residue).toNat
    (reqAddr, residue, addrVec)
    { count := rfl
      least := by simp
      unfinished := by simp
      finished := by simp
      needed := by simp }
    (by
      intro index state invariant entered
      have short : state.2.1 < length := by simpa using entered
      have reached := invariant.unfinished short
      have least := invariant.least
      have sum : arith (state.2.1 + cfg.burstLen) = state.2.1 + cfg.burstLen := by
        have := exact index (reached ▸ short)
        rwa [← reached] at this
      refine ⟨by omega, _, rfl, ?_⟩
      have grown : residue + ((index + 1 : Nat) : Int) * cfg.burstLen =
          state.2.1 + cfg.burstLen := by
        rw [reached]; push_cast; ring
      exact {
        count := by
          show (state.2.2 ++ [state.1 + cfg.burstLen]).length = _
          simp [invariant.count, Nat.add_assoc]
        least := by
          dsimp only
          rw [sum]
          split <;> omega
        unfinished := by
          dsimp only
          rw [grown, sum]
          split <;> omega
        finished := by
          dsimp only
          rw [grown, sum]
          split <;> omega
        needed := fun _ => by rw [Nat.add_sub_cancel, ← reached]; exact short })
  have done : (length : Int) ≤ final.2.1 := by simpa using stopped
  exact ⟨final, index, ran rounds (by omega), invariant.count, invariant.finished done,
    invariant.needed⟩

theorem ceil_eq (length : Int) {burstLen : Int} (positive : 0 < burstLen) {blocks : Nat}
    (someBlock : 0 < blocks) (covered : length ≤ blocks * burstLen)
    (needed : ((blocks - 1 : Nat) : Int) * burstLen < length) :
    (if length.tmod burstLen = 0 then length.tdiv burstLen else length.tdiv burstLen + 1) =
      blocks := by
  have nonneg : 0 ≤ length := by
    have : 0 ≤ ((blocks - 1 : Nat) : Int) * burstLen :=
      Int.mul_nonneg (by omega) (Int.le_of_lt positive)
    omega
  rw [Int.tmod_eq_emod_of_nonneg nonneg, Int.tdiv_eq_ediv_of_nonneg nonneg]
  have split := Int.mul_ediv_add_emod length burstLen
  have small := Int.emod_lt_of_pos length positive
  have low := Int.emod_nonneg length (Int.ne_of_gt positive)
  have previous : ((blocks - 1 : Nat) : Int) = blocks - 1 := by omega
  rw [previous] at needed
  have lower : (blocks : Int) - 1 ≤ length / burstLen := by
    by_contra less
    have : burstLen * (length / burstLen) ≤ burstLen * (blocks - 2) :=
      Int.mul_le_mul_of_nonneg_left (by omega) (Int.le_of_lt positive)
    nlinarith
  by_cases divides : length % burstLen = 0
  · rw [if_pos divides]
    have upper : length / burstLen ≤ blocks := by
      by_contra more
      have : burstLen * (blocks + 1) ≤ burstLen * (length / burstLen) :=
        Int.mul_le_mul_of_nonneg_left (by omega) (Int.le_of_lt positive)
      nlinarith
    have : length / burstLen ≠ blocks - 1 := by
      intro same
      rw [same, divides] at split
      nlinarith
    omega
  · rw [if_neg divides]
    have upper : length / burstLen ≤ blocks - 1 := by
      by_contra more
      have : burstLen * blocks ≤ burstLen * (length / burstLen) :=
        Int.mul_le_mul_of_nonneg_left (by omega) (Int.le_of_lt positive)
      have : 0 < length % burstLen := by omega
      nlinarith
    omega

theorem getReqNum_nonneg (cfg : BurstCfg) (op : BurstOp) : 0 ≤ op.getReqNum cfg := by
  have positive : (0 : Int) ≤ cfg.burstLen := by omega
  have quotient := fun num : Int => fun nonneg : 0 ≤ num =>
    Int.tdiv_nonneg nonneg positive
  have whole := quotient op.length (by omega)
  simp only [BurstOp.getReqNum]
  split
  · split <;> omega
  · split
    · rename_i exceeds
      have part := quotient ((op.length : Int) - (cfg.burstLen - op.getOffset cfg)) (by omega)
      split <;> omega
    · omega

theorem updateAddrVecIn_total {arith : Int → Int} {cfg : BurstCfg} {op : BurstOp}
    (exact : op.getOffset cfg ≠ 0 → AddrExact arith cfg op.length (cfg.burstLen - op.getOffset cfg))
    (fresh : op.addrVec = []) :
    ∃ addrVec, op.updateAddrVecIn arith cfg = some { op with addrVec } ∧
      addrVec.length = (op.getReqNum cfg).toNat := by
  by_cases aligned : op.getOffset cfg = 0
  · refine ⟨_, by simp only [BurstOp.updateAddrVecIn, if_pos aligned]; rfl, ?_⟩
    simp [fresh]
  · have below := getOffset_lt cfg op
    obtain ⟨final, index, ran, count, covered, needed⟩ := addrLoop_total (exact aligned)
      (op.addrRounds cfg) (by rw [BurstOp.addrRounds]; omega) (Nat.succ_pos _) (op.getAlignedAddr cfg)
      (op.addrVec ++ [op.getAlignedAddr cfg])
    refine ⟨final.2.2, by simp only [BurstOp.updateAddrVecIn, if_neg aligned, ran]; rfl, ?_⟩
    rw [count, fresh]
    simp only [BurstOp.getReqNum, if_neg aligned]
    rcases Nat.eq_zero_or_pos index with rfl | more
    · rw [if_neg (by omega)]
      simp
    · have short := needed more
      have positive : (0 : Int) < cfg.burstLen := by have := cfg.positive; omega
      have nonneg : 0 ≤ ((index - 1 : Nat) : Int) * cfg.burstLen :=
        Int.mul_nonneg (by omega) (Int.le_of_lt positive)
      rw [if_pos (by omega)]
      have blocks := ceil_eq (op.length - (cfg.burstLen - op.getOffset cfg)) positive more
        (by omega) (by omega)
      split at blocks <;> rename_i divides
      · rw [if_pos divides, blocks]
        simp
        omega
      · rw [if_neg divides]
        simp
        omega

theorem newBurst_total (cfg : BurstCfg) (op : BurstOp) (noReqs : op.reqVec = [])
    (noAddrs : op.addrVec = []) (reqIdx : Nat) :
    ∃ addrVec, newBurst cfg op reqIdx = some ({ op with
        reqVec := List.range' reqIdx (op.getReqNum cfg).toNat, addrVec },
        reqIdx + (op.getReqNum cfg).toNat) ∧
      addrVec.length = (op.getReqNum cfg).toNat := by
  obtain ⟨addrVec, updated, count⟩ := @updateAddrVecIn_total id cfg
    { op with reqVec := List.range' reqIdx (op.getReqNum cfg).toNat } (fun _ _ _ => rfl) noAddrs
  refine ⟨addrVec, ?_, count⟩
  simp only [newBurst, BurstOp.updateReqVec, noReqs, List.nil_append, BurstOp.updateAddrVec, updated]
  rfl

/-- What `convertToReq` makes of a well-formed burst. -/
theorem convertToReq_spec {op : BurstOp} (wellFormed : op.WellFormed cfg) :
    ∃ reqs, op.convertToReq cfg = some reqs ∧ (reqs.length : Int) = op.getReqNum cfg ∧
      reqs.map (·.udf.reqIdx) = op.reqVec ∧ reqs.map (·.addr) = op.addrVec ∧
      ∀ r ∈ reqs, r.type = op.type ∧ r.udf.burstIdx = op.burstIdx ∧
        r.udf.portIdx = op.portIdx := by
  have converted := mapM_eq_some_map
    (fun i => do return op.basicReq (← op.addrVec[i]?) (← op.reqVec[i]?))
    (fun i => op.basicReq (op.addrVec.getD i 0) (op.reqVec.getD i 0))
    (List.range (op.getReqNum cfg).toNat) (by
      intro i membership
      have bound := List.mem_range.mp membership
      simp [List.getElem?_eq_getElem (wellFormed.addrs ▸ bound),
        List.getElem?_eq_getElem (wellFormed.reqs ▸ bound)])
  refine ⟨_, converted, ?_, ?_, ?_, ?_⟩
  · have := getReqNum_nonneg cfg op
    simp
    omega
  · apply List.ext_getElem
    · simp [wellFormed.reqs]
    · intro i _ bound
      simp [BurstOp.basicReq, bound]
  · apply List.ext_getElem
    · simp [wellFormed.addrs]
    · intro i _ bound
      simp [BurstOp.basicReq, bound]
  · intro r membership
    obtain ⟨i, _, rfl⟩ := List.mem_map.mp membership
    exact ⟨rfl, rfl, rfl⟩

theorem shapes_set {bursts : List BurstOp} {idx : Nat} {op other : BurstOp}
    (present : bursts[idx]? = some op) (same : other.shape = op.shape) :
    (bursts.set idx other).map BurstOp.shape = bursts.map BurstOp.shape := by
  obtain ⟨bound, rfl⟩ := List.getElem?_eq_some_iff.mp present
  rw [List.map_set, same, ← List.getElem_map BurstOp.shape, List.set_getElem_self]
  simpa using bound

theorem shape_lookup {bursts other : List BurstOp}
    (same : bursts.map BurstOp.shape = other.map BurstOp.shape) {idx : Nat} {op : BurstOp}
    (present : bursts[idx]? = some op) :
    ∃ otherOp, other[idx]? = some otherOp ∧ otherOp.shape = op.shape := by
  have mapped : (other.map BurstOp.shape)[idx]? = some op.shape := by
    rw [← same, List.getElem?_map, present, Option.map_some]
  rw [List.getElem?_map, Option.map_eq_some_iff] at mapped
  exact mapped

theorem shape_prefix {bursts later : List BurstOp}
    (grown : bursts.map BurstOp.shape <+: later.map BurstOp.shape) {idx : Nat} {op : BurstOp}
    (present : bursts[idx]? = some op) :
    ∃ laterOp, later[idx]? = some laterOp ∧ laterOp.shape = op.shape := by
  obtain ⟨more, same⟩ := grown
  have mapped : (later.map BurstOp.shape)[idx]? = some op.shape := by
    have bound := (List.getElem?_eq_some_iff.mp present).1
    rw [← same, List.getElem?_append_left (by simpa using bound), List.getElem?_map, present,
      Option.map_some]
  rw [List.getElem?_map, Option.map_eq_some_iff] at mapped
  exact mapped

theorem shape_length {op other : BurstOp} (same : op.shape = other.shape) :
    op.length = other.length := by
  show op.shape.length = other.shape.length
  rw [same]

theorem shape_addr {op other : BurstOp} (same : op.shape = other.shape) :
    op.addr = other.addr := by
  show op.shape.addr = other.shape.addr
  rw [same]

theorem shape_portIdx {op other : BurstOp} (same : op.shape = other.shape) :
    op.portIdx = other.portIdx := by
  show op.shape.portIdx = other.shape.portIdx
  rw [same]

theorem shape_reqVec {op other : BurstOp} (same : op.shape = other.shape) :
    op.reqVec = other.reqVec := by
  show op.shape.reqVec = other.shape.reqVec
  rw [same]

theorem shape_burstIdx {op other : BurstOp} (same : op.shape = other.shape) :
    op.burstIdx = other.burstIdx := by
  show op.shape.burstIdx = other.shape.burstIdx
  rw [same]

theorem shape_type {op other : BurstOp} (same : op.shape = other.shape) :
    op.type = other.type := by
  show op.shape.type = other.shape.type
  rw [same]

theorem shape_wellFormed {op other : BurstOp} (same : op.shape = other.shape)
    (wellFormed : other.WellFormed cfg) : op.WellFormed cfg := by
  have reqNum : op.getReqNum cfg = other.getReqNum cfg := by
    show op.shape.getReqNum cfg = other.shape.getReqNum cfg
    rw [same]
  have addrVec : op.addrVec = other.addrVec := by
    show op.shape.addrVec = other.shape.addrVec
    rw [same]
  exact ⟨by rw [reqNum, addrVec]; exact wellFormed.addrs,
    by rw [reqNum, shape_reqVec same]; exact wellFormed.reqs⟩

theorem ramToReq_eq {op copied : BurstOp} {ramData : List Byte}
    (ran : op.ramToReq ramData = some copied) :
    ∃ bytes, copied = { op with data := op.data ++ bytes } := by
  rw [BurstOp.ramToReq, Option.bind_eq_bind, Option.bind_eq_some_iff] at ran
  obtain ⟨bytes, _, ran⟩ := ran
  exact ⟨bytes, (Option.some.inj ran).symm⟩

end

end GraphAccelerator.Memory
