import GraphAccelerator.Dram.Timing

/-!
# DDR3

The tables of the `DDR3` standard.  A timing table is the list of the entries in the
order in which `init_timing` adds them, each with the command whose row it is added to.
-/

namespace GraphAccelerator.Dram.Ddr3

open GraphAccelerator.Memory (RequestType)

inductive Command where
  | act
  | pre
  | prea
  | rd
  | wr
  | rda
  | wra
  | ref
  | pde
  | pdx
  | sre
  | srx
  deriving DecidableEq, Repr

inductive State where
  | opened
  | closed
  | powerUp
  | actPowerDown
  | prePowerDown
  | selfRefresh
  | max
  deriving DecidableEq, Repr

inductive Org where
  | ddr3_512Mb_x4
  | ddr3_512Mb_x8
  | ddr3_512Mb_x16
  | ddr3_1Gb_x4
  | ddr3_1Gb_x8
  | ddr3_1Gb_x16
  | ddr3_2Gb_x4
  | ddr3_2Gb_x8
  | ddr3_2Gb_x16
  | ddr3_4Gb_x4
  | ddr3_4Gb_x8
  | ddr3_4Gb_x16
  | ddr3_8Gb_x4
  | ddr3_8Gb_x8
  | ddr3_8Gb_x16
  deriving DecidableEq, Repr

inductive Speed where
  | ddr3_800D
  | ddr3_800E
  | ddr3_1066E
  | ddr3_1066F
  | ddr3_1066G
  | ddr3_1333G
  | ddr3_1333H
  | ddr3_1600H
  | ddr3_1600J
  | ddr3_1600K
  | ddr3_1866K
  | ddr3_1866L
  | ddr3_2133L
  | ddr3_2133M
  deriving DecidableEq, Repr

/-- The counts of channels and ranks are set by the configuration. -/
structure OrgEntry where
  size : Nat
  dq : Nat
  bank : Nat
  row : Nat
  column : Nat
  deriving DecidableEq, Repr

def orgTable : Org → OrgEntry
  | .ddr3_512Mb_x4 => ⟨512, 4, 8, 2 ^ 13, 2 ^ 11⟩
  | .ddr3_512Mb_x8 => ⟨512, 8, 8, 2 ^ 13, 2 ^ 10⟩
  | .ddr3_512Mb_x16 => ⟨512, 16, 8, 2 ^ 12, 2 ^ 10⟩
  | .ddr3_1Gb_x4 => ⟨2 ^ 10, 4, 8, 2 ^ 14, 2 ^ 11⟩
  | .ddr3_1Gb_x8 => ⟨2 ^ 10, 8, 8, 2 ^ 14, 2 ^ 10⟩
  | .ddr3_1Gb_x16 => ⟨2 ^ 10, 16, 8, 2 ^ 13, 2 ^ 10⟩
  | .ddr3_2Gb_x4 => ⟨2 * 2 ^ 10, 4, 8, 2 ^ 15, 2 ^ 11⟩
  | .ddr3_2Gb_x8 => ⟨2 * 2 ^ 10, 8, 8, 2 ^ 15, 2 ^ 10⟩
  | .ddr3_2Gb_x16 => ⟨2 * 2 ^ 10, 16, 8, 2 ^ 14, 2 ^ 10⟩
  | .ddr3_4Gb_x4 => ⟨4 * 2 ^ 10, 4, 8, 2 ^ 16, 2 ^ 11⟩
  | .ddr3_4Gb_x8 => ⟨4 * 2 ^ 10, 8, 8, 2 ^ 16, 2 ^ 10⟩
  | .ddr3_4Gb_x16 => ⟨4 * 2 ^ 10, 16, 8, 2 ^ 15, 2 ^ 10⟩
  | .ddr3_8Gb_x4 => ⟨8 * 2 ^ 10, 4, 8, 2 ^ 16, 2 ^ 12⟩
  | .ddr3_8Gb_x8 => ⟨8 * 2 ^ 10, 8, 8, 2 ^ 16, 2 ^ 11⟩
  | .ddr3_8Gb_x16 => ⟨8 * 2 ^ 10, 16, 8, 2 ^ 16, 2 ^ 10⟩

/-- `nRRD`, `nFAW`, `nRFC` and `nXS` are 0 in the table and set by `init_speed`. -/
structure SpeedEntry where
  rate : Nat
  nBL : Nat
  nCCD : Nat
  nRTRS : Nat
  nCL : Nat
  nRCD : Nat
  nRP : Nat
  nCWL : Nat
  nRAS : Nat
  nRC : Nat
  nRTP : Nat
  nWTR : Nat
  nWR : Nat
  nRRD : Nat := 0
  nFAW : Nat := 0
  nRFC : Nat := 0
  nREFI : Nat
  nPD : Nat
  nXP : Nat
  nXPDLL : Nat
  nCKESR : Nat
  nXS : Nat := 0
  nXSDLL : Nat
  deriving DecidableEq, Repr

def speedTable : Speed → SpeedEntry
  | .ddr3_800D => ⟨800, 4, 4, 2, 5, 5, 5, 5, 15, 20, 4, 4, 6, 0, 0, 0, 3120, 3, 3, 10, 4, 0, 512⟩
  | .ddr3_800E => ⟨800, 4, 4, 2, 6, 6, 6, 5, 15, 21, 4, 4, 6, 0, 0, 0, 3120, 3, 3, 10, 4, 0, 512⟩
  | .ddr3_1066E => ⟨1066, 4, 4, 2, 6, 6, 6, 6, 20, 26, 4, 4, 8, 0, 0, 0, 4160, 3, 4, 13, 4, 0, 512⟩
  | .ddr3_1066F => ⟨1066, 4, 4, 2, 7, 7, 7, 6, 20, 27, 4, 4, 8, 0, 0, 0, 4160, 3, 4, 13, 4, 0, 512⟩
  | .ddr3_1066G => ⟨1066, 4, 4, 2, 8, 8, 8, 6, 20, 28, 4, 4, 8, 0, 0, 0, 4160, 3, 4, 13, 4, 0, 512⟩
  | .ddr3_1333G => ⟨1333, 4, 4, 2, 8, 8, 8, 7, 24, 32, 5, 5, 10, 0, 0, 0, 5200, 4, 4, 16, 5, 0, 512⟩
  | .ddr3_1333H => ⟨1333, 4, 4, 2, 9, 9, 9, 7, 24, 33, 5, 5, 10, 0, 0, 0, 5200, 4, 4, 16, 5, 0, 512⟩
  | .ddr3_1600H => ⟨1600, 4, 4, 2, 9, 9, 9, 8, 28, 37, 6, 6, 12, 0, 0, 0, 6240, 4, 5, 20, 5, 0, 512⟩
  | .ddr3_1600J => ⟨1600, 4, 4, 2, 10, 10, 10, 8, 28, 38, 6, 6, 12, 0, 0, 0, 6240, 4, 5, 20, 5, 0, 512⟩
  | .ddr3_1600K => ⟨1600, 4, 4, 2, 11, 11, 11, 8, 28, 39, 6, 6, 12, 0, 0, 0, 6240, 4, 5, 20, 5, 0, 512⟩
  | .ddr3_1866K => ⟨1866, 4, 4, 2, 11, 11, 11, 9, 32, 43, 7, 7, 14, 0, 0, 0, 7280, 5, 6, 23, 6, 0, 512⟩
  | .ddr3_1866L => ⟨1866, 4, 4, 2, 12, 12, 12, 9, 32, 44, 7, 7, 14, 0, 0, 0, 7280, 5, 6, 23, 6, 0, 512⟩
  | .ddr3_2133L => ⟨2133, 4, 4, 2, 12, 12, 12, 10, 36, 48, 8, 8, 16, 0, 0, 0, 8320, 6, 7, 26, 7, 0, 512⟩
  | .ddr3_2133M => ⟨2133, 4, 4, 2, 13, 13, 13, 10, 36, 49, 8, 8, 16, 0, 0, 0, 8320, 6, 7, 26, 7, 0, 512⟩

def byChip (size mb512 gb1 gb2 gb4 gb8 : Nat) : Nat :=
  if size = 512 then mb512
  else if size = 2 ^ 10 then gb1
  else if size = 2 ^ 11 then gb2
  else if size = 2 ^ 12 then gb4
  else gb8

/-- `init_speed`; the rates are those of the table. -/
def initSpeed (org : OrgEntry) (s : SpeedEntry) : Option SpeedEntry :=
  let page := (org.dq * org.column) >>> 13
  let size := org.size
  match s.rate with
  | 800 => some { s with
      nRRD := if page = 1 then 4 else 4
      nFAW := if page = 1 then 16 else 20
      nRFC := byChip size 36 44 64 104 140
      nXS := byChip size 40 48 68 108 144 }
  | 1066 => some { s with
      nRRD := if page = 1 then 4 else 6
      nFAW := if page = 1 then 20 else 27
      nRFC := byChip size 48 59 86 139 187
      nXS := byChip size 54 64 91 144 192 }
  | 1333 => some { s with
      nRRD := if page = 1 then 4 else 5
      nFAW := if page = 1 then 20 else 30
      nRFC := byChip size 60 74 107 174 234
      nXS := byChip size 67 80 114 180 240 }
  | 1600 => some { s with
      nRRD := if page = 1 then 5 else 6
      nFAW := if page = 1 then 24 else 32
      nRFC := byChip size 72 88 128 208 280
      nXS := byChip size 80 96 136 216 288 }
  | 1866 => some { s with
      nRRD := if page = 1 then 5 else 6
      nFAW := if page = 1 then 26 else 33
      nRFC := byChip size 84 103 150 243 327
      nXS := byChip size 94 112 159 252 336 }
  | 2133 => some { s with
      nRRD := if page = 1 then 5 else 6
      nFAW := if page = 1 then 27 else 34
      nRFC := byChip size 96 118 171 278 374
      nXS := byChip size 107 128 182 288 384 }
  | _ => none

/-- No speed of the table fails the assertion of `init_speed`. -/
theorem initSpeed_isSome (org : OrgEntry) (speed : Speed) :
    (initSpeed org (speedTable speed)).isSome := by
  cases speed <;> rfl

def speedEntry (org : Org) (speed : Speed) : SpeedEntry :=
  (initSpeed (orgTable org) (speedTable speed)).get (initSpeed_isSome _ speed)

abbrev Node := DRAM Command State

/-- `prereq[Rank][RD]` -/
def prereqRankRd (node : Node) (_cmd : Command) (_id : Int) : Option (Option Command) :=
  match node.cell.state with
  | .powerUp => some none
  | .actPowerDown => some (some .pdx)
  | .prePowerDown => some (some .pdx)
  | .selfRefresh => some (some .srx)
  | _ => none

/-- `prereq[Bank][RD]` -/
def prereqBankRd (node : Node) (cmd : Command) (id : Int) : Option (Option Command) :=
  match node.cell.state with
  | .closed => some (some .act)
  | .opened => if (node.cell.rowState id).isSome then some (some cmd) else some (some .pre)
  | _ => none

/-- `prereq[Rank][REF]` -/
def prereqRankRef (node : Node) (_cmd : Command) (_id : Int) : Option (Option Command) :=
  if node.children.any fun bank => bank.cell.state ≠ .closed then some (some .prea)
  else some (some .ref)

/-- `prereq[Rank][PDE]` -/
def prereqRankPde (node : Node) (_cmd : Command) (_id : Int) : Option (Option Command) :=
  match node.cell.state with
  | .powerUp => some (some .pde)
  | .actPowerDown => some (some .pde)
  | .prePowerDown => some (some .pde)
  | .selfRefresh => some (some .srx)
  | _ => none

/-- `prereq[Rank][SRE]` -/
def prereqRankSre (node : Node) (_cmd : Command) (_id : Int) : Option (Option Command) :=
  match node.cell.state with
  | .powerUp => some (some .sre)
  | .actPowerDown => some (some .pdx)
  | .prePowerDown => some (some .pdx)
  | .selfRefresh => some (some .sre)
  | _ => none

def prereq : Nat → Command → Option (Node → Command → Int → Option (Option Command))
  | 1, .rd => some prereqRankRd
  | 2, .rd => some prereqBankRd
  | 1, .wr => some prereqRankRd
  | 2, .wr => some prereqBankRd
  | 1, .ref => some prereqRankRef
  | 1, .pde => some prereqRankPde
  | 1, .sre => some prereqRankSre
  | _, _ => none

/-- `rowhit[Bank][RD]` -/
def rowhitBankRd (node : Node) (_cmd : Command) (id : Int) : Option Bool :=
  match node.cell.state with
  | .closed => some false
  | .opened => some (node.cell.rowState id).isSome
  | _ => none

def rowhit : Nat → Command → Option (Node → Command → Int → Option Bool)
  | 2, .rd => some rowhitBankRd
  | 2, .wr => some rowhitBankRd
  | _, _ => none

/-- `rowopen[Bank][RD]` -/
def rowopenBankRd (node : Node) (_cmd : Command) (_id : Int) : Option Bool :=
  match node.cell.state with
  | .closed => some false
  | .opened => some true
  | _ => none

def rowopen : Nat → Command → Option (Node → Command → Int → Option Bool)
  | 2, .rd => some rowopenBankRd
  | 2, .wr => some rowopenBankRd
  | _, _ => none

def setState (state : State) (node : Node) : Node := .mk { node.cell with state } node.children

/-- `lambda[Bank][ACT]` -/
def openRow (node : Node) (id : Int) : Node :=
  .mk { node.cell with
    state := .opened
    rowState := Function.update node.cell.rowState id (some .opened) } node.children

/-- `lambda[Bank][PRE]` -/
def closeRows (node : Node) : Node :=
  .mk { node.cell with state := .closed, rowState := fun _ => none } node.children

def lambda : Nat → Command → Option (Node → Int → Node)
  | 2, .act => some openRow
  | 2, .pre => some fun node _ => closeRows node
  | 1, .prea => some fun node _ => .mk node.cell (node.children.map closeRows)
  | 1, .ref => some fun node _ => node
  | 2, .rd => some fun node _ => node
  | 2, .wr => some fun node _ => node
  | 2, .rda => some fun node _ => closeRows node
  | 2, .wra => some fun node _ => closeRows node
  | 1, .pde => some fun node _ =>
      if node.children.any fun bank => bank.cell.state ≠ .closed then
        setState .actPowerDown node
      else setState .prePowerDown node
  | 1, .pdx => some fun node _ => setState .powerUp node
  | 1, .sre => some fun node _ => setState .selfRefresh node
  | 1, .srx => some fun node _ => setState .powerUp node
  | _, _ => none

section Timing

variable (s : SpeedEntry)

def channelTiming : List (Command × TimingEntry Command) := [
  -- CAS <-> CAS
  (.rd, ⟨.rd, 1, s.nBL, false⟩),
  (.rd, ⟨.rda, 1, s.nBL, false⟩),
  (.rda, ⟨.rd, 1, s.nBL, false⟩),
  (.rda, ⟨.rda, 1, s.nBL, false⟩),
  (.wr, ⟨.wr, 1, s.nBL, false⟩),
  (.wr, ⟨.wra, 1, s.nBL, false⟩),
  (.wra, ⟨.wr, 1, s.nBL, false⟩),
  (.wra, ⟨.wra, 1, s.nBL, false⟩)]

def rankTiming : List (Command × TimingEntry Command) := [
  -- CAS <-> CAS
  (.rd, ⟨.rd, 1, s.nCCD, false⟩),
  (.rd, ⟨.rda, 1, s.nCCD, false⟩),
  (.rda, ⟨.rd, 1, s.nCCD, false⟩),
  (.rda, ⟨.rda, 1, s.nCCD, false⟩),
  (.wr, ⟨.wr, 1, s.nCCD, false⟩),
  (.wr, ⟨.wra, 1, s.nCCD, false⟩),
  (.wra, ⟨.wr, 1, s.nCCD, false⟩),
  (.wra, ⟨.wra, 1, s.nCCD, false⟩),
  (.rd, ⟨.wr, 1, s.nCL + s.nCCD + 2 - s.nCWL, false⟩),
  (.rd, ⟨.wra, 1, s.nCL + s.nCCD + 2 - s.nCWL, false⟩),
  (.rda, ⟨.wr, 1, s.nCL + s.nCCD + 2 - s.nCWL, false⟩),
  (.rda, ⟨.wra, 1, s.nCL + s.nCCD + 2 - s.nCWL, false⟩),
  (.wr, ⟨.rd, 1, s.nCWL + s.nBL + s.nWTR, false⟩),
  (.wr, ⟨.rda, 1, s.nCWL + s.nBL + s.nWTR, false⟩),
  (.wra, ⟨.rd, 1, s.nCWL + s.nBL + s.nWTR, false⟩),
  (.wra, ⟨.rda, 1, s.nCWL + s.nBL + s.nWTR, false⟩),
  -- CAS <-> CAS (between sibling ranks)
  (.rd, ⟨.rd, 1, s.nBL + s.nRTRS, true⟩),
  (.rd, ⟨.rda, 1, s.nBL + s.nRTRS, true⟩),
  (.rda, ⟨.rd, 1, s.nBL + s.nRTRS, true⟩),
  (.rda, ⟨.rda, 1, s.nBL + s.nRTRS, true⟩),
  (.rd, ⟨.wr, 1, s.nBL + s.nRTRS, true⟩),
  (.rd, ⟨.wra, 1, s.nBL + s.nRTRS, true⟩),
  (.rda, ⟨.wr, 1, s.nBL + s.nRTRS, true⟩),
  (.rda, ⟨.wra, 1, s.nBL + s.nRTRS, true⟩),
  (.rd, ⟨.wr, 1, s.nCL + s.nBL + s.nRTRS - s.nCWL, true⟩),
  (.rd, ⟨.wra, 1, s.nCL + s.nBL + s.nRTRS - s.nCWL, true⟩),
  (.rda, ⟨.wr, 1, s.nCL + s.nBL + s.nRTRS - s.nCWL, true⟩),
  (.rda, ⟨.wra, 1, s.nCL + s.nBL + s.nRTRS - s.nCWL, true⟩),
  (.wr, ⟨.rd, 1, s.nCWL + s.nBL + s.nRTRS - s.nCL, true⟩),
  (.wr, ⟨.rda, 1, s.nCWL + s.nBL + s.nRTRS - s.nCL, true⟩),
  (.wra, ⟨.rd, 1, s.nCWL + s.nBL + s.nRTRS - s.nCL, true⟩),
  (.wra, ⟨.rda, 1, s.nCWL + s.nBL + s.nRTRS - s.nCL, true⟩),
  (.rd, ⟨.prea, 1, s.nRTP, false⟩),
  (.wr, ⟨.prea, 1, s.nCWL + s.nBL + s.nWR, false⟩),
  -- CAS <-> PD
  (.rd, ⟨.pde, 1, s.nCL + s.nBL + 1, false⟩),
  (.rda, ⟨.pde, 1, s.nCL + s.nBL + 1, false⟩),
  (.wr, ⟨.pde, 1, s.nCWL + s.nBL + s.nWR, false⟩),
  (.wra, ⟨.pde, 1, s.nCWL + s.nBL + s.nWR + 1, false⟩),
  (.pdx, ⟨.rd, 1, s.nXP, false⟩),
  (.pdx, ⟨.rda, 1, s.nXP, false⟩),
  (.pdx, ⟨.wr, 1, s.nXP, false⟩),
  (.pdx, ⟨.wra, 1, s.nXP, false⟩),
  -- RAS <-> RAS
  (.act, ⟨.act, 1, s.nRRD, false⟩),
  (.act, ⟨.act, 4, s.nFAW, false⟩),
  (.act, ⟨.prea, 1, s.nRAS, false⟩),
  (.prea, ⟨.act, 1, s.nRP, false⟩),
  -- RAS <-> REF
  (.pre, ⟨.ref, 1, s.nRP, false⟩),
  (.prea, ⟨.ref, 1, s.nRP, false⟩),
  (.ref, ⟨.act, 1, s.nRFC, false⟩),
  -- RAS <-> PD
  (.act, ⟨.pde, 1, 1, false⟩),
  (.pdx, ⟨.act, 1, s.nXP, false⟩),
  (.pdx, ⟨.pre, 1, s.nXP, false⟩),
  (.pdx, ⟨.prea, 1, s.nXP, false⟩),
  -- RAS <-> SR
  (.pre, ⟨.sre, 1, s.nRP, false⟩),
  (.prea, ⟨.sre, 1, s.nRP, false⟩),
  (.srx, ⟨.act, 1, s.nXS, false⟩),
  -- REF <-> REF
  (.ref, ⟨.ref, 1, s.nRFC, false⟩),
  -- REF <-> PD
  (.ref, ⟨.pde, 1, 1, false⟩),
  (.pdx, ⟨.ref, 1, s.nXP, false⟩),
  -- REF <-> SR
  (.srx, ⟨.ref, 1, s.nXS, false⟩),
  -- PD <-> PD
  (.pde, ⟨.pdx, 1, s.nPD, false⟩),
  (.pdx, ⟨.pde, 1, s.nXP, false⟩),
  -- PD <-> SR
  (.pdx, ⟨.sre, 1, s.nXP, false⟩),
  (.srx, ⟨.pde, 1, s.nXS, false⟩),
  -- SR <-> SR
  (.sre, ⟨.srx, 1, s.nCKESR, false⟩),
  (.srx, ⟨.sre, 1, s.nXS, false⟩)]

def bankTiming : List (Command × TimingEntry Command) := [
  -- CAS <-> RAS
  (.act, ⟨.rd, 1, s.nRCD, false⟩),
  (.act, ⟨.rda, 1, s.nRCD, false⟩),
  (.act, ⟨.wr, 1, s.nRCD, false⟩),
  (.act, ⟨.wra, 1, s.nRCD, false⟩),
  (.rd, ⟨.pre, 1, s.nRTP, false⟩),
  (.wr, ⟨.pre, 1, s.nCWL + s.nBL + s.nWR, false⟩),
  (.rda, ⟨.act, 1, s.nRTP + s.nRP, false⟩),
  (.wra, ⟨.act, 1, s.nCWL + s.nBL + s.nWR + s.nRP, false⟩),
  -- RAS <-> RAS
  (.act, ⟨.act, 1, s.nRC, false⟩),
  (.act, ⟨.pre, 1, s.nRAS, false⟩),
  (.pre, ⟨.act, 1, s.nRP, false⟩)]

def timingTable : Nat → List (Command × TimingEntry Command)
  | 0 => channelTiming s
  | 1 => rankTiming s
  | 2 => bankTiming s
  | _ => []

def timing (level : Nat) (cmd : Command) : List (TimingEntry Command) :=
  ((timingTable s level).filter fun added => added.1 = cmd).map Prod.snd

end Timing

def scope : Command → Nat
  | .act => 3
  | .pre => 2
  | .prea => 1
  | .rd | .wr | .rda | .wra => 4
  | .ref | .pde | .pdx | .sre | .srx => 1

def start : Nat → State
  | 1 => .powerUp
  | 2 | 3 => .closed
  | _ => .max

/-- `translate`; the entry of `EXTENSION` is not initialised, that is 0. -/
def translate : RequestType → Command
  | .read => .rd
  | .write => .wr
  | .refresh => .ref
  | .powerdown => .pde
  | .selfrefresh => .sre
  | .extension => .act
  | .max => .act

theorem mem_timing {s : SpeedEntry} {level : Nat} {cmd : Command} {t : TimingEntry Command} :
    t ∈ timing s level cmd ↔ (cmd, t) ∈ timingTable s level := by
  simp [timing]

theorem timing_forall {s : SpeedEntry} {holds : Command → TimingEntry Command → Prop}
    (channel : ∀ added ∈ channelTiming s, holds added.1 added.2)
    (rank : ∀ added ∈ rankTiming s, holds added.1 added.2)
    (bank : ∀ added ∈ bankTiming s, holds added.1 added.2) (level : Nat) (cmd : Command) :
    ∀ t ∈ timing s level cmd, holds cmd t := by
  intro t entry
  rw [mem_timing] at entry
  match level with
  | 0 => exact channel _ entry
  | 1 => exact rank _ entry
  | 2 => exact bank _ entry
  | level + 3 => cases entry

/-- What `update_timing` asserts of an entry of the row of `cmd`. -/
@[mk_iff WellFormedEntry.mk_iff]
structure WellFormedEntry (cmd : Command) (t : TimingEntry Command) : Prop where
  pos : 0 < t.dist
  sibling : t.sibling = true → t.dist = 1
  refresh : cmd = .ref → t.cmd = .act → t.dist = 1

theorem timing_wellFormed (s : SpeedEntry) (level : Nat) (cmd : Command) :
    ∀ t ∈ timing s level cmd, WellFormedEntry cmd t := by
  refine timing_forall ?_ ?_ ?_ level cmd
  · simp [channelTiming, WellFormedEntry.mk_iff]
  · simp [rankTiming, WellFormedEntry.mk_iff]
  · simp [bankTiming, WellFormedEntry.mk_iff]

theorem Stateless.closeRows {holds : List Int → Cell Command State → Nat → Prop}
    (stateless : Stateless holds) {above : List Int} {node : Node}
    (all : Everywhere holds above node) : Everywhere holds above (closeRows node) :=
  all.setCell rfl (stateless _ _ _ _ _ all.here)

theorem Stateless.setState {holds : List Int → Cell Command State → Nat → Prop}
    (stateless : Stateless holds) (state : State) {above : List Int} {node : Node}
    (all : Everywhere holds above node) : Everywhere holds above (setState state node) :=
  all.setCell rfl (stateless _ _ _ state node.cell.rowState all.here)

theorem lambda_states (level : Nat) (cmd : Command) (f : Node → Int → Node)
    (entry : lambda level cmd = some f) (holds : List Int → Cell Command State → Nat → Prop)
    (stateless : Stateless holds) (above : List Int) (node : Node) (i : Int)
    (all : Everywhere holds above node) :
    Everywhere holds above (f node i) ∧ (f node i).cell.id = node.cell.id := by
  unfold lambda at entry
  split at entry <;> cases entry
  · exact ⟨all.setCell rfl (stateless _ _ _ _ _ all.here), rfl⟩
  · exact ⟨Stateless.closeRows stateless all, rfl⟩
  · refine ⟨.mk ?_ ?_ ?_, rfl⟩
    · rw [List.length_map]
      exact all.here
    · intro j child present
      rw [List.getElem?_map, Option.map_eq_some_iff] at present
      obtain ⟨bank, found, rfl⟩ := present
      have sameId : (closeRows bank).cell.id = bank.cell.id := rfl
      exact sameId.trans (all.numbered found)
    · intro child present
      obtain ⟨bank, known, rfl⟩ := List.mem_map.mp present
      exact Stateless.closeRows stateless (all.inside known)
  · exact ⟨all, rfl⟩
  · exact ⟨all, rfl⟩
  · exact ⟨all, rfl⟩
  · exact ⟨Stateless.closeRows stateless all, rfl⟩
  · exact ⟨Stateless.closeRows stateless all, rfl⟩
  · dsimp only
    split
    · exact ⟨Stateless.setState stateless _ all, rfl⟩
    · exact ⟨Stateless.setState stateless _ all, rfl⟩
  · exact ⟨Stateless.setState stateless _ all, rfl⟩
  · exact ⟨Stateless.setState stateless _ all, rfl⟩
  · exact ⟨Stateless.setState stateless _ all, rfl⟩

end GraphAccelerator.Dram.Ddr3

namespace GraphAccelerator.Dram

open Ddr3

def ddr3 (org : Org) (speed : Speed) (channels ranks : Nat) :
    Standard Ddr3.Command Ddr3.State where
  bank := 2
  row := 3
  levels := 5
  row_pos := by decide
  row_lt := by decide
  scope := Ddr3.scope
  isOpening cmd := cmd = .act
  isAccessing cmd := cmd = .rd ∨ cmd = .wr ∨ cmd = .rda ∨ cmd = .wra
  isClosing cmd := cmd = .rda ∨ cmd = .wra ∨ cmd = .pre ∨ cmd = .prea
  isRefreshing cmd := cmd = .ref
  start := Ddr3.start
  pre := .pre
  translate := Ddr3.translate
  prereq := Ddr3.prereq
  rowhit := Ddr3.rowhit
  rowopen := Ddr3.rowopen
  lambda := Ddr3.lambda
  timing := Ddr3.timing (speedEntry org speed)
  count
    | 0 => channels
    | 1 => ranks
    | 2 => (orgTable org).bank
    | 3 => (orgTable org).row
    | 4 => (orgTable org).column
    | _ => 0
  prefetchSize := 8
  channelWidth := 64
  readLatency := (speedTable speed).nCL + (speedTable speed).nBL
  nREFI := (speedEntry org speed).nREFI
  dist_pos level cmd t entry := (timing_wellFormed _ level cmd t entry).pos
  dist_sibling level cmd t entry := (timing_wellFormed _ level cmd t entry).sibling
  dist_refresh level cmd t entry _ isRef isAct :=
    (timing_wellFormed _ level cmd t entry).refresh (of_decide_eq_true isRef)
      (of_decide_eq_true isAct)
  lambda_states := Ddr3.lambda_states

end GraphAccelerator.Dram
