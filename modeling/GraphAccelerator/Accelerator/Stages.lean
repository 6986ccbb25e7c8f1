import GraphAccelerator.Bfs.Csr
import GraphAccelerator.Accelerator.Pipeline

/-!
# The stages of one level

What the buffers and bursts of the pipeline mean while one level is searched.  The
bytes of a buffer are decoded to vertices, and a byte that was read is compared with
the memory image before the level: it is the same, or it is the new depth of a vertex
that was unvisited.  Every stage has one lemma for what comes in and one for what goes
out.
-/

namespace GraphAccelerator

open Memory SparseRows Pipeline

def depthByte (g : Graph) (ramData : List Byte) (v : Nat) : Byte :=
  if v < g.vertexNum then (ramData[v]?).getD (-1) else -1

def Line.spans (line : Line) : List (Nat × Nat) := line.ops.map fun op => (op.addr, op.length)

namespace LevelPass

section Definitions

variable (g : Graph) (edge : Nat → Nat → Prop) (before : List Byte) (level : Byte)

def Next (v : Nat) : Prop := ∃ u, depthByte g before u = level ∧ edge u v

/-- What a read may have returned so far. -/
def Observed (ramData : List Byte) (addr : Nat) (byte : Byte) : Prop :=
  before[addr]? = some byte ∨
    before[addr]? = some (-1) ∧ Next g edge before level addr ∧ byte = level + 1 ∧
      ramData[addr]? = some (level + 1)

/-- Only unvisited out-neighbours of the level have changed. -/
structure Written (ramData : List Byte) : Prop where
  length : ramData.length = before.length
  bytes : ∀ addr, ramData[addr]? = before[addr]? ∨
    before[addr]? = some (-1) ∧ Next g edge before level addr ∧ ramData[addr]? = some (level + 1)

structure Observes (ramData : List Byte) (op : BurstOp) : Prop where
  length : op.data.length = op.length
  bytes : ∀ j byte, op.data[j]? = some byte →
    Observed g edge before level ramData (op.addr + j) byte

/-- The bursts of a port that reads. -/
structure ReadLine (ramData : List Byte) (line : Line) : Prop where
  responded : ∀ op ∈ line.responded, Observes g edge before level ramData op
  waiting : ∀ op ∈ line.waiting ++ line.asked.toList, op.type = .read ∧ op.data = []

structure DepthWrite (data : List Byte) (op : BurstOp) : Prop where
  type : op.type = .write
  data : op.data = data
  length : op.length = 1
  fresh : before[op.addr]? = some (-1)
  next : Next g edge before level op.addr

structure WriteLine (ramData depthBuffer2 : List Byte) (line : Line) : Prop where
  responded : ∀ op ∈ line.responded, ramData[op.addr]? = some (level + 1)
  waiting : ∀ op ∈ line.waiting, DepthWrite g edge before level [level + 1] op
  asked : ∀ op ∈ line.asked, DepthWrite g edge before level [] op
  buffer : depthBuffer2 = line.asked.toList.map fun _ => level + 1

structure Transfers (ramData depthBuffer2 : List Byte) (lines : Port → Line) : Prop where
  ram : Written g edge before level ramData
  reads : ∀ i, i ≠ 7 → ReadLine g edge before level ramData (lines i)
  writes : WriteLine g edge before level ramData depthBuffer2 (lines 7)

def partEnd (i : Part) : Nat := Pe.resetIdx (Gl.layout g) i + (Gl.layout g).maxLen i

def Contiguous : Nat → List (Nat × Nat) → Nat → Prop
  | first, [], last => first = last
  | first, (addr, length) :: rest, last => addr = first ∧ Contiguous (first + length) rest last

/-- A partition: the buffer and the bursts continue from `idx` to its end. -/
structure InspectStage (ramData : List Byte) (i : Part) (idx : Nat) (depthBuffer0 : List Byte)
    (spans : List (Nat × Nat)) (span : Span) : Prop where
  analysed : Pe.resetIdx (Gl.layout g) i ≤ idx
  read : ∀ j d, depthBuffer0[j]? = some d → Observed g edge before level ramData (idx + j) d
  asked : ∃ last : Nat, span.addr = last ∧ Contiguous (idx + depthBuffer0.length) spans last ∧
    last + span.left = partEnd g i

def rowPointers (u : Nat) : List Int :=
  [((Bfs.CSR.ofGraph g).rpao[u]?.getD 0 : Nat), ((Bfs.CSR.ofGraph g).rpao[u + 1]?.getD 0 : Nat)]

structure VertexStage (frontierBuffer : List Int) (spans : List (Nat × Nat))
    (rpaoBuffer : List Int) (frontier asked rows : List Nat) : Prop where
  buffer : frontierBuffer = frontier.map Int.ofNat
  spans : spans = asked.map fun u => ((Gl.layout g).rpaoMemAddr + 4 * u, 8)
  pointers : rpaoBuffer = rows.flatMap (rowPointers g)
  level : ∀ u ∈ frontier ++ asked ++ rows, depthByte g before u = level

structure Columns (addr : Int) (length : Nat) (row : List Nat) : Prop where
  length : length = 4 * row.length
  stored : row = [] ∨ ∃ k : Nat, addr = ((Gl.layout g).ciaoMemAddr + 4 * k : Nat) ∧
    ((Bfs.CSR.ofGraph g).ciao.drop k).take row.length = row

structure ColumnStage (rest : Span) (spans : List (Nat × Nat)) (ciaoBuffer : List Int)
    (row : List Nat) (asked : List (List Nat)) (columns : List Nat) : Prop where
  current : Columns g rest.addr rest.left row
  spans : List.Forall₂ (fun span chunk => Columns g span.1 span.2 chunk) spans asked
  buffer : ciaoBuffer = columns.map Int.ofNat
  next : ∀ v ∈ row ++ asked.flatten ++ columns, Next g edge before level v

structure DepthStage (ramData : List Byte) (vidxBuffer : List Int) (spans : List (Nat × Nat))
    (depthBuffer1 : List Byte) (read asked : List Nat) : Prop where
  buffer : vidxBuffer = (read ++ asked).map Int.ofNat
  spans : spans = asked.map fun v => (v, 1)
  depths : List.Forall₂ (Observed g edge before level ramData) read depthBuffer1
  next : ∀ v ∈ read ++ asked, Next g edge before level v

end Definitions

section

variable {g : Graph} {edge : Nat → Nat → Prop} {out inn : Nat → List Nat}
variable {before : List Byte} {level : Byte}

/-- A graph whose arrays are in the memory image, and a level that differs, as its
successor, from the mark of the unvisited vertices. -/
structure Setting (g : Graph) (edge : Nat → Nat → Prop) (out inn : Nat → List Nat)
    (before : List Byte) (level : Byte) : Prop where
  rep : (Bfs.CSR.ofGraph g).Represents edge out inn
  laidOut : LaidOut g before
  small : ∀ value ∈ (Bfs.CSR.ofGraph g).rpao ++ (Bfs.CSR.ofGraph g).ciao, value < 2 ^ 31
  visited : level ≠ -1
  nextVisited : level + 1 ≠ -1

theorem depthByte_eq {ramData : List Byte} {v : Nat} {d : Byte} (visited : d ≠ -1) :
    depthByte g ramData v = d ↔ v < g.vertexNum ∧ ramData[v]? = some d := by
  rw [depthByte]
  split
  · rename_i bound
    cases ramData[v]? with
    | none => exact ⟨fun same => absurd same.symm visited, fun stored => by cases stored.2⟩
    | some byte => simp only [Option.getD_some, bound, true_and, Option.some.injEq]
  · rename_i outside
    exact ⟨fun same => absurd same.symm visited, fun stored => absurd stored.1 outside⟩

theorem Next.lt (setting : Setting g edge out inn before level) {v : Nat}
    (next : Next g edge before level v) : v < g.vertexNum := by
  obtain ⟨u, _, uvEdge⟩ := next
  exact (setting.rep.edge_lt u v uvEdge).2

section Observation

variable {ramData later : List Byte} {addr : Nat} {byte : Byte}

theorem Written.observed (written : Written g edge before level ramData)
    (stored : ramData[addr]? = some byte) : Observed g edge before level ramData addr byte := by
  rcases written.bytes addr with same | ⟨fresh, next, changed⟩
  · exact .inl (same ▸ stored)
  · rw [changed] at stored
    exact .inr ⟨fresh, next, (Option.some.inj stored).symm, changed⟩

theorem Observed.mono (observed : Observed g edge before level ramData addr byte)
    (kept : ∀ other : Nat, ramData[other]? = some (level + 1) →
      later[other]? = some (level + 1)) :
    Observed g edge before level later addr byte :=
  observed.imp_right fun ⟨fresh, next, new, changed⟩ => ⟨fresh, next, new, kept addr changed⟩

theorem Observed.behind (setting : Setting g edge out inn before level)
    (observed : Observed g edge before level ramData addr byte) (behind : g.vertexNum ≤ addr) :
    before[addr]? = some byte := by
  rcases observed with same | ⟨_, next, _⟩
  · exact same
  · exact absurd (next.lt setting) (by omega)

/-- A vertex that was read as unvisited was so before the level. -/
theorem Observed.fresh (observed : Observed g edge before level ramData addr (-1)) :
    before[addr]? = some (-1) := by
  rcases observed with same | ⟨fresh, _⟩
  · exact same
  · exact fresh

theorem Observed.visited (setting : Setting g edge out inn before level)
    (written : Written g edge before level ramData)
    (observed : Observed g edge before level ramData addr byte) (visited : byte ≠ -1) :
    ramData[addr]? ≠ some (-1) := by
  have new : some (level + 1) ≠ some (-1) := fun same =>
    setting.nextVisited (Option.some.inj same)
  rcases observed with same | ⟨_, _, _, changed⟩
  · rcases written.bytes addr with unchanged | ⟨_, _, changed⟩
    · rw [unchanged, same]
      exact fun unvisited => visited (Option.some.inj unvisited)
    · exact changed ▸ new
  · exact changed ▸ new

/-- A new depth is not mistaken for the level. -/
theorem Observed.isLevel (setting : Setting g edge out inn before level) {v : Nat}
    (observed : Observed g edge before level ramData v byte) (bound : v < g.vertexNum) :
    byte = level ↔ depthByte g before v = level := by
  rw [depthByte_eq setting.visited]
  rcases observed with same | ⟨fresh, _, new, _⟩
  · simp [bound, same]
  · have other : level + 1 ≠ level := by bv_omega
    exact ⟨fun isLevel => absurd (new.symm.trans isLevel) other,
      fun ⟨_, same⟩ => absurd (Option.some.inj (same.symm.trans fresh)) setting.visited⟩

end Observation

section Reading

variable {ramData : List Byte} {op : BurstOp}

theorem toBytes_eq (whole : op.data.length = op.length) {bytes : List Byte}
    (converted : Pe.toBytes op = some bytes) : bytes = op.data := by
  have indices : (fun i => op.data[i]?) = fun i => op.data[0 + i]? := by simp
  rw [Pe.toBytes, indices] at converted
  obtain ⟨rfl, _⟩ := mapM_range_getElem? converted
  rw [List.drop_zero, ← whole, List.take_length]

theorem toWords_eq (setting : Setting g edge out inn before level)
    (observes : Observes g edge before level ramData op) {words : List Int}
    (converted : Pe.toWords op = some words) {values : List Nat} {addr k count : Nat}
    (stored : StoredAt before addr values) (behind : g.vertexNum ≤ addr)
    (small : ∀ value ∈ values, value < 2 ^ 31) (within : k + count ≤ values.length)
    (start : op.addr = addr + 4 * k) (length : op.length = 4 * count) :
    words = ((values.drop k).take count).map Int.ofNat := by
  rw [Pe.toWords, if_neg (by omega), Option.map_eq_some_iff] at converted
  obtain ⟨bytes, converted, rfl⟩ := converted
  obtain rfl := toBytes_eq observes.length converted
  have dataLength : op.data.length = 4 * count := observes.length.trans length
  have bytes := stored.read within dataLength fun j bound => by
    obtain ⟨byte, present⟩ : ∃ byte, op.data[j]? = some byte :=
      ⟨_, List.getElem?_eq_getElem (dataLength ▸ bound)⟩
    rw [present, ← start]
    exact ((observes.bytes j byte present).behind setting (by omega)).symm
  rw [bytes]
  exact toInts_flatMap fun value membership =>
    small value (List.mem_of_mem_drop (List.mem_of_mem_take membership))

end Reading

section Vertices

variable {frontierBuffer rpaoBuffer : List Int} {spans : List (Nat × Nat)}
variable {frontier asked rows : List Nat}

theorem rowPointers_eq (setting : Setting g edge out inn before level) {u : Nat}
    (bound : u < g.vertexNum) :
    ∃ first : Nat, rowPointers g u = [(first : Int), ((first + (out u).length : Nat) : Int)] ∧
      (((Bfs.CSR.ofGraph g).rpao.drop u).take 2).map Int.ofNat = rowPointers g u ∧
      u + 2 ≤ (Bfs.CSR.ofGraph g).rpao.length ∧
      ((Bfs.CSR.ofGraph g).ciao.drop first).take (out u).length = out u := by
  obtain ⟨first, start, last, entries⟩ := setting.rep.outRow u bound
  obtain ⟨startBound, rfl⟩ := List.getElem?_eq_some_iff.mp start
  obtain ⟨lastBound, lastEq⟩ := List.getElem?_eq_some_iff.mp last
  refine ⟨(Bfs.CSR.ofGraph g).rpao[u], ?_, ?_, lastBound, ?_⟩
  · simp [rowPointers, start, last]
  · rw [List.drop_eq_getElem_cons startBound, List.drop_eq_getElem_cons lastBound]
    simp [rowPointers, start, last, lastEq]
  · apply List.ext_getElem?
    intro offset
    rw [List.getElem?_take]
    split
    · rename_i inside
      rw [List.getElem?_drop, entries offset inside]
    · exact (List.getElem?_eq_none (by omega)).symm

namespace VertexStage

theorem push (stage : VertexStage g before level frontierBuffer spans rpaoBuffer frontier asked rows)
    {u : Nat} (isLevel : depthByte g before u = level) :
    VertexStage g before level (frontierBuffer ++ [(u : Int)]) spans rpaoBuffer (frontier ++ [u])
      asked rows where
  buffer := by rw [stage.buffer, List.map_append]; rfl
  spans := stage.spans
  pointers := stage.pointers
  level v membership := by
    simp only [List.mem_append, List.mem_singleton] at membership
    rcases membership with ((old | rfl) | old) | old
    · exact stage.level v (by simp [old])
    · exact isLevel
    · exact stage.level v (by simp [old])
    · exact stage.level v (by simp [old])

theorem ask {vidx : Int} {rest : List Int} {op : BurstOp}
    (stage : VertexStage g before level (vidx :: rest) spans rpaoBuffer frontier asked rows)
    (asks : Asks op .read ((Gl.layout g).rpaoMemAddr + vidx * 4) 8) :
    ∃ u others, frontier = u :: others ∧
      VertexStage g before level rest (spans ++ [(op.addr, op.length)]) rpaoBuffer others
        (asked ++ [u]) rows := by
  obtain ⟨u, others, rfl⟩ : ∃ u others, frontier = u :: others :=
    List.exists_cons_of_ne_nil (by rintro rfl; cases stage.buffer)
  have buffer := stage.buffer
  rw [List.map_cons, List.cons.injEq] at buffer
  obtain ⟨rfl, rfl⟩ := buffer
  have addr : op.addr = (Gl.layout g).rpaoMemAddr + 4 * u := by
    have := asks.addr
    rw [Int.ofNat_eq_natCast] at this
    omega
  refine ⟨u, others, rfl, rfl, ?_, stage.pointers, fun v membership => ?_⟩
  · simp [stage.spans, addr, asks.length]
  · refine stage.level v ?_
    simp only [List.mem_append, List.mem_cons] at membership ⊢
    tauto

theorem store (setting : Setting g edge out inn before level) {ramData : List Byte}
    {op : BurstOp} {words : List Int}
    (stage : VertexStage g before level frontierBuffer ((op.addr, op.length) :: spans) rpaoBuffer
      frontier asked rows)
    (observes : Observes g edge before level ramData op)
    (converted : Pe.toWords op = some words) :
    ∃ u others, asked = u :: others ∧
      VertexStage g before level frontierBuffer spans (rpaoBuffer ++ words) frontier others
        (rows ++ [u]) := by
  obtain ⟨u, others, rfl⟩ : ∃ u others, asked = u :: others :=
    List.exists_cons_of_ne_nil (by rintro rfl; cases stage.spans)
  have covered := stage.spans
  simp only [List.map_cons, List.cons.injEq, Prod.mk.injEq] at covered
  obtain ⟨⟨start, length⟩, rest⟩ := covered
  have bound := ((depthByte_eq setting.visited).mp (stage.level u (by simp))).1
  obtain ⟨first, _, pointers, within, _⟩ := rowPointers_eq setting bound
  have read := toWords_eq setting observes converted setting.laidOut.rpao
    setting.laidOut.behind.1 (fun value membership =>
      setting.small value (List.mem_append_left _ membership)) within start length
  refine ⟨u, others, rfl, stage.buffer, rest, ?_, fun v membership => ?_⟩
  · rw [stage.pointers, List.flatMap_append, List.flatMap_singleton, read]
    exact congrArg _ pointers
  · refine stage.level v ?_
    simp only [List.mem_append, List.mem_cons] at membership ⊢
    tauto

theorem take (setting : Setting g edge out inn before level) {srcIdx dstIdx : Int}
    {rest : List Int}
    (stage : VertexStage g before level frontierBuffer spans (srcIdx :: dstIdx :: rest) frontier
      asked rows) :
    ∃ u others, rows = u :: others ∧ depthByte g before u = level ∧
      VertexStage g before level frontierBuffer spans rest frontier asked others ∧
      Columns g ((Gl.layout g).ciaoMemAddr + srcIdx * 4) (4 * (dstIdx - srcIdx)).toNat
        (out u) := by
  obtain ⟨u, others, rfl⟩ : ∃ u others, rows = u :: others :=
    List.exists_cons_of_ne_nil (by rintro rfl; cases stage.pointers)
  have isLevel := stage.level u (by simp)
  have bound := ((depthByte_eq setting.visited).mp isLevel).1
  obtain ⟨first, pointers, _, _, row⟩ := rowPointers_eq setting bound
  have buffer := stage.pointers
  rw [List.flatMap_cons, pointers] at buffer
  simp only [List.cons_append, List.nil_append, List.cons.injEq] at buffer
  obtain ⟨rfl, rfl, rfl⟩ := buffer
  refine ⟨u, others, rfl, isLevel, ⟨stage.buffer, stage.spans, rfl, fun v membership => ?_⟩,
    by omega, .inr ⟨first, by omega, row⟩⟩
  refine stage.level v ?_
  simp only [List.mem_append, List.mem_cons] at membership ⊢
  tauto

end VertexStage

end Vertices

section NextLevel

variable {ramData : List Byte} {spans : List (Nat × Nat)} {op : BurstOp}

theorem Columns.split {addr : Int} {left m : Nat} {row : List Nat}
    (stored : Columns g addr left row) (within : m ≤ row.length) :
    Columns g addr (4 * m) (row.take m) ∧
      Columns g (addr + (4 * m : Nat)) (left - 4 * m) (row.drop m) := by
  have length := stored.length
  refine ⟨⟨by simp [within], ?_⟩, ⟨by simp; omega, ?_⟩⟩
  · rcases stored.stored with rfl | ⟨k, start, same⟩
    · exact .inl (by simp)
    · refine .inr ⟨k, start, ?_⟩
      conv_rhs => rw [← same, List.take_take, Nat.min_eq_left within]
      rw [List.length_take, Nat.min_eq_left within]
  · rcases stored.stored with rfl | ⟨k, start, same⟩
    · exact .inl (by simp)
    · refine .inr ⟨k + m, by omega, ?_⟩
      conv_rhs => rw [← same, List.drop_take, List.drop_drop]
      rw [List.length_drop]

theorem Columns.read (setting : Setting g edge out inn before level) {chunk : List Nat}
    {words : List Int} (stored : Columns g op.addr op.length chunk)
    (observes : Observes g edge before level ramData op)
    (converted : Pe.toWords op = some words) : words = chunk.map Int.ofNat := by
  by_cases empty : chunk = []
  · subst empty
    have none : op.length = 0 := stored.length
    simp only [Pe.toWords, Pe.toBytes, none, List.range_zero, List.mapM_nil, ne_eq,
      not_true_eq_false, if_false, Option.pure_def, Option.map_some, Option.some.injEq,
      Nat.zero_mod] at converted
    exact converted.symm
  · obtain ⟨k, start, same⟩ := stored.stored.resolve_left empty
    have within := congrArg List.length same
    rw [List.length_take, List.length_drop] at within
    have positive := List.length_pos_iff.mpr empty
    have behind := setting.laidOut.behind
    have read := toWords_eq setting observes converted setting.laidOut.ciao
      (by omega) (fun value membership => setting.small value (List.mem_append_right _ membership))
      (show k + chunk.length ≤ (Bfs.CSR.ofGraph g).ciao.length by omega)
      (by exact_mod_cast start) stored.length
    exact read.trans (congrArg _ same)

section Column

variable {rest : Span} {ciaoBuffer : List Int} {row columns : List Nat} {asked : List (List Nat)}

namespace ColumnStage

theorem load (stage : ColumnStage g edge before level rest spans ciaoBuffer row asked columns)
    (finished : rest.left = 0) {addr : Int} {length : Nat} {following : List Nat}
    (stored : Columns g addr length following)
    (next : ∀ v ∈ following, Next g edge before level v) :
    row = [] ∧
      ColumnStage g edge before level ⟨addr, length⟩ spans ciaoBuffer following asked columns := by
  have empty : row = [] := List.eq_nil_of_length_eq_zero (by have := stage.current.length; omega)
  subst empty
  refine ⟨rfl, stored, stage.spans, stage.buffer, fun v membership => ?_⟩
  rw [List.append_assoc, List.mem_append] at membership
  rcases membership with new | old
  · exact next v new
  · exact stage.next v (by simpa using old)

theorem ask {length : Nat}
    (stage : ColumnStage g edge before level rest spans ciaoBuffer row asked columns)
    (chunk : length = min Gl.baseLen rest.left) (asks : Asks op .read rest.addr length) :
    ∃ m, ColumnStage g edge before level ⟨rest.addr + length, rest.left - length⟩
      (spans ++ [(op.addr, op.length)]) ciaoBuffer (row.drop m) (asked ++ [row.take m])
      columns := by
  have left := stage.current.length
  have multiple : length = 4 * min 256 row.length := by
    have : Gl.baseLen = 1024 := rfl
    omega
  obtain ⟨first, others⟩ := stage.current.split (Nat.min_le_right 256 row.length)
  rw [← multiple] at first others
  refine ⟨min 256 row.length, others, ?_, stage.buffer, fun v membership => ?_⟩
  · have stored : Columns g op.addr op.length (row.take (min 256 row.length)) := by
      rw [asks.addr, asks.length]
      exact first
    exact List.rel_append stage.spans (.cons stored .nil)
  · refine stage.next v ?_
    simp only [List.flatten_append, List.flatten_singleton, List.mem_append] at membership ⊢
    rcases membership with (behind | old | front) | old
    · exact .inl (.inl (List.mem_of_mem_drop behind))
    · exact .inl (.inr old)
    · exact .inl (.inl (List.mem_of_mem_take front))
    · exact .inr old

theorem store (setting : Setting g edge out inn before level) {words : List Int}
    (stage : ColumnStage g edge before level rest ((op.addr, op.length) :: spans) ciaoBuffer row
      asked columns)
    (observes : Observes g edge before level ramData op)
    (converted : Pe.toWords op = some words) :
    ∃ chunk others, asked = chunk :: others ∧
      ColumnStage g edge before level rest spans (ciaoBuffer ++ words) row others
        (columns ++ chunk) := by
  obtain ⟨chunk, others, stored, remaining, rfl⟩ := List.forall₂_cons_left_iff.mp stage.spans
  refine ⟨chunk, others, rfl, stage.current, remaining, ?_, fun v membership => ?_⟩
  · rw [stage.buffer, stored.read setting observes converted, List.map_append]
  · refine stage.next v ?_
    simp only [List.flatten_cons, List.mem_append] at membership ⊢
    tauto

theorem take {vidx : Int} {vidxs : List Int}
    (stage : ColumnStage g edge before level rest spans (vidx :: vidxs) row asked columns) :
    ∃ (v : Nat) (others : List Nat), columns = v :: others ∧ vidx = v ∧
      Next g edge before level v ∧
      ColumnStage g edge before level rest spans vidxs row asked others := by
  obtain ⟨v, others, rfl⟩ : ∃ v others, columns = v :: others :=
    List.exists_cons_of_ne_nil (by rintro rfl; cases stage.buffer)
  have buffer := stage.buffer
  rw [List.map_cons, List.cons.injEq] at buffer
  refine ⟨v, others, rfl, buffer.1, stage.next v (by simp), stage.current, stage.spans, buffer.2,
    fun w membership => stage.next w ?_⟩
  simp only [List.mem_append, List.mem_cons] at membership ⊢
  tauto

end ColumnStage

end Column

section Depth

variable {vidxBuffer : List Int} {depthBuffer1 : List Byte} {read asked : List Nat}

namespace DepthStage

theorem ask (stage : DepthStage g edge before level ramData vidxBuffer spans depthBuffer1 read asked)
    {v : Nat} (next : Next g edge before level v)
    (asks : Asks op .read ((Gl.layout g).depthMemAddr + (v : Int)) 1) :
    DepthStage g edge before level ramData (vidxBuffer ++ [(v : Int)])
      (spans ++ [(op.addr, op.length)]) depthBuffer1 read (asked ++ [v]) := by
  have addr : op.addr = v := by
    have start := asks.addr
    have origin : (Gl.layout g).depthMemAddr = 0 := rfl
    omega
  refine ⟨?_, ?_, stage.depths, fun w membership => ?_⟩
  · simp [stage.buffer]
  · simp [stage.spans, addr, asks.length]
  · rw [← List.append_assoc, List.mem_append, List.mem_singleton] at membership
    rcases membership with old | rfl
    · exact stage.next w old
    · exact next

theorem store {bytes : List Byte}
    (stage : DepthStage g edge before level ramData vidxBuffer ((op.addr, op.length) :: spans)
      depthBuffer1 read asked)
    (observes : Observes g edge before level ramData op)
    (converted : Pe.toBytes op = some bytes) :
    ∃ v others, asked = v :: others ∧
      DepthStage g edge before level ramData vidxBuffer spans (depthBuffer1 ++ bytes)
        (read ++ [v]) others := by
  obtain ⟨v, others, rfl⟩ : ∃ v others, asked = v :: others :=
    List.exists_cons_of_ne_nil (by rintro rfl; cases stage.spans)
  have covered := stage.spans
  simp only [List.map_cons, List.cons.injEq, Prod.mk.injEq] at covered
  obtain ⟨⟨start, length⟩, rest⟩ := covered
  obtain rfl := toBytes_eq observes.length converted
  obtain ⟨byte, same⟩ := List.length_eq_one_iff.mp (observes.length.trans length)
  have observed := observes.bytes 0 byte (by simp [same])
  rw [Nat.add_zero, start] at observed
  refine ⟨v, others, rfl, ?_, rest, ?_, fun w membership => ?_⟩
  · rw [stage.buffer, List.append_assoc]
    rfl
  · rw [same]
    exact List.rel_append stage.depths (.cons observed .nil)
  · exact stage.next w (by simpa using membership)

theorem take {vidx : Int} {vidxs : List Int} {d : Byte} {depths : List Byte}
    (stage : DepthStage g edge before level ramData (vidx :: vidxs) spans (d :: depths) read
      asked) :
    ∃ (v : Nat) (others : List Nat), read = v :: others ∧ vidx = v ∧
      Observed g edge before level ramData v d ∧ Next g edge before level v ∧
      DepthStage g edge before level ramData vidxs spans depths others asked := by
  obtain ⟨v, others, observed, remaining, rfl⟩ := List.forall₂_cons_right_iff.mp stage.depths
  have buffer := stage.buffer
  rw [List.cons_append, List.map_cons, List.cons.injEq] at buffer
  exact ⟨v, others, rfl, buffer.1, observed, stage.next v (by simp), buffer.2, stage.spans,
    remaining, fun w membership => stage.next w (List.mem_cons_of_mem _ membership)⟩

theorem mono {later : List Byte}
    (stage : DepthStage g edge before level ramData vidxBuffer spans depthBuffer1 read asked)
    (kept : ∀ addr : Nat, ramData[addr]? = some (level + 1) →
      later[addr]? = some (level + 1)) :
    DepthStage g edge before level later vidxBuffer spans depthBuffer1 read asked :=
  ⟨stage.buffer, stage.spans, stage.depths.imp fun _ _ observed => observed.mono kept,
    stage.next⟩

end DepthStage

end Depth

end NextLevel

section Inspection

variable {ramData : List Byte} {i : Part} {idx : Nat} {depthBuffer0 : List Byte}
variable {spans : List (Nat × Nat)} {span : Span} {op : BurstOp}

theorem Contiguous.append {first last : Nat} (contiguous : Contiguous first spans last)
    (length : Nat) : Contiguous first (spans ++ [(last, length)]) (last + length) := by
  induction spans generalizing first with
  | nil =>
      obtain rfl : first = last := contiguous
      exact ⟨rfl, rfl⟩
  | cons head rest inductionHypothesis =>
      exact ⟨contiguous.1, inductionHypothesis contiguous.2⟩

theorem Contiguous.trans {more : List (Nat × Nat)} {start mid last : Nat}
    (head : Contiguous start spans mid) (tail : Contiguous mid more last) :
    Contiguous start (spans ++ more) last := by
  induction spans generalizing start with
  | nil =>
      obtain rfl : start = mid := head
      exact tail
  | cons span spans inductionHypothesis => exact ⟨head.1, inductionHypothesis head.2⟩

namespace InspectStage

theorem ask (stage : InspectStage g edge before level ramData i idx depthBuffer0 spans span)
    {length : Nat} (asks : Asks op .read span.addr length) (within : length ≤ span.left) :
    InspectStage g edge before level ramData i idx depthBuffer0
      (spans ++ [(op.addr, op.length)]) ⟨span.addr + length, span.left - length⟩ := by
  obtain ⟨last, start, contiguous, remaining⟩ := stage.asked
  have addr : op.addr = last := by
    have := asks.addr
    omega
  refine ⟨stage.analysed, stage.read, last + length, by simp [start], ?_, by simp; omega⟩
  rw [addr, asks.length]
  exact contiguous.append length

theorem store {bytes : List Byte}
    (stage : InspectStage g edge before level ramData i idx depthBuffer0
      ((op.addr, op.length) :: spans) span)
    (observes : Observes g edge before level ramData op)
    (converted : Pe.toBytes op = some bytes) :
    InspectStage g edge before level ramData i idx (depthBuffer0 ++ bytes) spans span := by
  obtain rfl := toBytes_eq observes.length converted
  obtain ⟨last, start, ⟨addr, contiguous⟩, remaining⟩ := stage.asked
  refine ⟨stage.analysed, fun j d present => ?_, last, start, ?_, remaining⟩
  · rw [List.getElem?_append] at present
    split at present
    · exact stage.read j d present
    · have observed := observes.bytes _ d present
      rwa [addr, show idx + depthBuffer0.length + (j - depthBuffer0.length) = idx + j by omega]
        at observed
  · rw [List.length_append, observes.length, ← Nat.add_assoc]
    exact contiguous

theorem analyse {d : Byte} {depths : List Byte}
    (stage : InspectStage g edge before level ramData i idx (d :: depths) spans span) :
    InspectStage g edge before level ramData i (idx + 1) depths spans span ∧
      Observed g edge before level ramData idx d := by
  obtain ⟨last, start, contiguous, remaining⟩ := stage.asked
  refine ⟨⟨Nat.le_succ_of_le stage.analysed, fun j byte present => ?_, last, start, ?_,
    remaining⟩, stage.read 0 d (by simp)⟩
  · rw [Nat.add_right_comm]
    exact stage.read (j + 1) byte (by simpa using present)
  · rwa [List.length_cons, ← Nat.add_assoc, Nat.add_right_comm] at contiguous

theorem mono {later : List Byte}
    (stage : InspectStage g edge before level ramData i idx depthBuffer0 spans span)
    (kept : ∀ addr : Nat, ramData[addr]? = some (level + 1) →
      later[addr]? = some (level + 1)) :
    InspectStage g edge before level later i idx depthBuffer0 spans span :=
  ⟨stage.analysed, fun j d present => (stage.read j d present).mono kept, stage.asked⟩

theorem Contiguous.le {first last : Nat} (contiguous : Contiguous first spans last) :
    first ≤ last := by
  induction spans generalizing first with
  | nil => exact Nat.le_of_eq contiguous
  | cons head rest inductionHypothesis =>
      have := inductionHypothesis contiguous.2
      omega

theorem within (stage : InspectStage g edge before level ramData i idx depthBuffer0 spans span) :
    idx + depthBuffer0.length ≤ partEnd g i := by
  obtain ⟨last, _, contiguous, remaining⟩ := stage.asked
  have := Contiguous.le contiguous
  omega

theorem finished (stage : InspectStage g edge before level ramData i idx [] [] span)
    (none : span.left = 0) : idx = partEnd g i := by
  obtain ⟨last, _, contiguous, remaining⟩ := stage.asked
  have same : idx = last := contiguous
  omega

end InspectStage

end Inspection

end

end LevelPass

end GraphAccelerator
