import GraphAccelerator.Bfs.Transpose
import GraphAccelerator.Accelerator.Loading
import GraphAccelerator.Accelerator.PairedRuns
import GraphAccelerator.Accelerator.RoundTrip

/-!
# Cleaning the memory image

Between two searches `cleanRam` sets the depths and the frontier to -1 again.  A search
only writes depths: the start vertex, and bursts at the neighbours that it has read from
the columns of the image.  So cleaning leaves the image as `ramInit` has left it.
-/

namespace GraphAccelerator

open CheckedLoop Memory Bfs

/-- A loop of `cleanRam`: writes a datum of these bytes again and again, each behind the
previous one. -/
def sweep (bytes : List Byte) (count addr : Nat) (ramData : List Byte) : Option (List Byte) :=
  ((List.range count).foldlM (fun (state : Nat × List Byte) _ => do
    return (state.1 + bytes.length, ← updateRam state.2 state.1 bytes)) (addr, ramData)).map Prod.snd

def cleanRam (gl : Gl) (ramData : List Byte) : Option (List Byte) := do
  let ramData ← sweep (charBytes (-1)) gl.vertexNum gl.depthMemAddr ramData
  sweep (intBytes (-1)) gl.vertexNum gl.frontierMemAddr ramData

structure SearchState where
  ramData : List Byte
  ngbs : List Int := []

/-- What searches do to the image.  A neighbour may be read long before the burst is
written that `expandDepthAnalysis` issues for it. -/
inductive SearchStep (gl : Gl) : SearchState → SearchState → Prop
  | setNewStartVertex {s : SearchState} {idx : Nat} {ramData : List Byte} :
      idx < gl.vertexNum → setNewStartVertex gl idx s.ramData = some ramData →
      SearchStep gl s { s with ramData }
  | readNgb {s : SearchState} {k : Nat} {vidx : Int} :
      k < gl.edgeNum → getIntFromRam s.ramData (gl.ciaoMemAddr + 4 * k) = some vidx →
      SearchStep gl s { s with ngbs := s.ngbs ++ [vidx] }
  | writeDepth {s : SearchState} {vidx : Int} {op : BurstOp} {ramData : List Byte} :
      vidx ∈ s.ngbs → op.type = .write → (op.addr : Int) = gl.depthMemAddr + vidx →
      op.length = 1 → op.reqToRam s.ramData = some ramData →
      SearchStep gl s { s with ramData }

section Sweep

theorem sweep_eq (bytes : List Byte) (count addr : Nat) (ramData : List Byte) :
    sweep bytes count addr ramData =
      updateRam ramData addr (List.replicate count bytes).flatten := by
  have written : ∀ (items : List Nat) (addr : Nat) (ramData : List Byte),
      (items.foldlM (fun (state : Nat × List Byte) _ => do
        return (state.1 + bytes.length, ← updateRam state.2 state.1 bytes))
          (addr, ramData)).map Prod.snd =
        updateRam ramData addr (List.replicate items.length bytes).flatten := by
    intro items
    induction items with
    | nil => exact fun _ _ => rfl
    | cons item items inductionHypothesis =>
        intro addr ramData
        rw [List.length_cons, List.replicate_succ, List.flatten_cons, updateRam_append,
          List.foldlM_cons]
        cases updateRam ramData addr bytes with
        | none => rfl
        | some next => exact inductionHypothesis _ _
  have counted := written (List.range count) addr ramData
  rw [List.length_range] at counted
  exact counted

theorem Region.Stored.inside {ramData : List Byte} {r : Region} (stored : r.Stored ramData)
    (nonempty : r.bytes ≠ []) : r.addr + r.bytes.length ≤ ramData.length := by
  have count := List.length_pos_iff.mpr nonempty
  have last := stored (r.bytes.length - 1) (by omega)
  rw [List.getElem?_eq_getElem (show r.bytes.length - 1 < r.bytes.length by omega)] at last
  have := (List.getElem?_eq_some_iff.mp last).1
  omega

theorem updateRam_restores {bytes ramData image : List Byte} {addr : Nat}
    (length : ramData.length = image.length) (stored : Region.Stored image ⟨addr, bytes⟩)
    (others : ∀ i, i < addr ∨ addr + bytes.length ≤ i → ramData[i]? = image[i]?) :
    updateRam ramData addr bytes = some image := by
  by_cases empty : bytes = []
  · subst empty
    rw [updateRam, Option.some.injEq]
    exact List.ext_getElem? fun i => others i (by rw [List.length_nil]; omega)
  · obtain ⟨after, updated⟩ := updateRam_total (length ▸ stored.inside empty)
    obtain ⟨_, contents⟩ := updateRam_spec updated
    rw [updated, Option.some.injEq]
    apply List.ext_getElem?
    intro i
    rw [contents]
    by_cases within : addr ≤ i ∧ i < addr + bytes.length
    · have same := stored (i - addr) (show i - addr < bytes.length by omega)
      rw [if_pos within, ← same]
      congr 1
      exact Nat.add_sub_cancel' within.1
    · rw [if_neg within, others i (by omega)]

theorem length_eq_of_behind {limit : Nat} {image ramData : List Byte} (covers : limit < image.length)
    (arrays : ∀ addr, limit ≤ addr → ramData[addr]? = image[addr]?) :
    ramData.length = image.length := by
  have last := arrays (image.length - 1) (by omega)
  have beyond := arrays image.length (by omega)
  rw [List.getElem?_eq_getElem (show image.length - 1 < image.length by omega)] at last
  rw [List.getElem?_eq_none (Nat.le_refl _), List.getElem?_eq_none_iff] at beyond
  have := (List.getElem?_eq_some_iff.mp last).1
  omega

theorem cleanRam_eq {g : Graph} {image ramData : List Byte}
    (vertices : g.vertices.length = g.vertexNum) (outgoing : outCount g.vertices ≤ g.edgeNum)
    (incoming : inCount g.vertices ≤ g.edgeNum) (initialized : ramInit g = some image)
    (arrays : ∀ addr, g.vertexNum ≤ addr → ramData[addr]? = image[addr]?) :
    cleanRam (Gl.layout g) ramData = some image := by
  obtain ⟨_, stored, _⟩ := ramInit_regions vertices outgoing incoming initialized
  obtain ⟨laidOut, _⟩ := ramInit_spec vertices outgoing initialized
  have length := length_eq_of_behind laidOut.vertexNum_lt arrays
  simp only [regions, List.mem_cons, List.not_mem_nil, or_false, forall_eq_or_imp,
    forall_eq] at stored
  obtain ⟨depths, _, _, _, _, frontier⟩ := stored
  rw [List.flatMap_replicate] at depths frontier
  have first := updateRam_restores length depths fun i outside => arrays i (by
    have origin : (Gl.layout g).depthMemAddr = 0 := rfl
    simp only [List.length_flatten, List.map_replicate, List.sum_replicate, charBytes,
      List.length_singleton, smul_eq_mul, Nat.mul_one] at outside
    omega)
  have second := updateRam_restores rfl frontier fun _ _ => rfl
  have number : (Gl.layout g).vertexNum = g.vertexNum := rfl
  rw [cleanRam, sweep_eq, number, first]
  exact (sweep_eq ..).trans second

end Sweep

section Search

variable {g : Graph} {isUgraph : Bool} {edges : List (Nat × Nat)} {image ramData : List Byte}

theorem getIntFromRam_congr {addr : Nat}
    (same : ∀ j, j < 4 → ramData[addr + j]? = image[addr + j]?) :
    getIntFromRam ramData addr = getIntFromRam image addr := by
  have range : List.range 4 = [0, 1, 2, 3] := rfl
  have first := same 0 (by decide)
  rw [Nat.add_zero] at first
  simp [getIntFromRam, range, same, first]

/-- Every word of the region of `ciao` is a vertex: the columns are, and the words that
are not used are zero. -/
theorem ciao_vertex (built : g.BuiltFrom isUgraph edges) (outgoing : outCount g.vertices ≤ g.edgeNum)
    (incoming : inCount g.vertices ≤ g.edgeNum) (initialized : ramInit g = some image)
    (positive : 0 < g.vertexNum) {k : Nat} (bound : k < g.edgeNum) {vidx : Int}
    (read : getIntFromRam image ((Gl.layout g).ciaoMemAddr + 4 * k) = some vidx) :
    ∃ v, v < g.vertexNum ∧ vidx = (v : Int) := by
  obtain ⟨length, stored, zeros⟩ :=
    ramInit_regions built.vertices_length outgoing incoming initialized
  have behind := (ramInit_spec built.vertices_length outgoing initialized).1
  simp only [regions, List.mem_cons, List.not_mem_nil, or_false, forall_eq_or_imp,
    forall_eq] at stored zeros
  obtain ⟨_, _, columns, pointers, _, _⟩ := stored
  have small : g.edgeNum * 4 * 4 < 2 ^ 31 := length ▸ behind.length
  have rows := behind.vertexNum_lt
  by_cases used : k < (CSR.ofGraph g).ciao.length
  · obtain ⟨_, ciao, _, _⟩ := @built_small isUgraph edges g built (2 ^ 31) (by omega) (by omega)
      (by omega)
    rw [getIntFromRam_nat ciao columns used, List.getElem?_eq_getElem used, Option.map_some] at read
    exact ⟨_, (ofGraph_columns_lt built).1 _ (List.getElem_mem used), (Option.some.inj read).symm⟩
  · have address3 := alignMyself_ge ((Gl.layout g).ciaoMemAddr + 4 * g.edgeNum)
    have address4 := alignMyself_ge ((Gl.layout g).rpaiMemAddr + 4 * (g.vertexNum + 1))
    have address5 := alignMyself_ge ((Gl.layout g).ciaiMemAddr + 4 * g.edgeNum)
    change _ ≤ (Gl.layout g).rpaiMemAddr at address3
    change _ ≤ (Gl.layout g).ciaiMemAddr at address4
    change _ ≤ (Gl.layout g).frontierMemAddr at address5
    have present := pointers.inside (List.ne_nil_of_length_pos (by
      rw [flatMap_intBytes_length, List.length_map]
      simp [CSR.ofGraph]))
    have before := behind.behind
    have origin : (Gl.layout g).depthMemAddr = 0 := rfl
    have depths : ((List.replicate g.vertexNum (-1)).flatMap charBytes).length = g.vertexNum := by
      simp [charBytes]
    have length' : (CSR.ofGraph g).rpao.length = g.vertexNum + 1 := by
      simp [CSR.ofGraph, built.vertices_length]
    simp only [flatMap_intBytes_length, List.length_map, depths, length'] at zeros present
    have zero : ∀ j, j < 4 → image[(Gl.layout g).ciaoMemAddr + 4 * k + j]? = some 0 :=
      fun j within => zeros _ (by omega) (by omega)
    have range : List.range 4 = [0, 1, 2, 3] := rfl
    have first := zero 0 (by decide)
    rw [Nat.add_zero] at first
    refine ⟨0, positive, ?_⟩
    have word : getIntFromRam image ((Gl.layout g).ciaoMemAddr + 4 * k) = some 0 := by
      simp [getIntFromRam, range, zero, first, toInts]
    exact Option.some.inj (read.symm.trans word)

structure Kept (g : Graph) (image : List Byte) (s : SearchState) : Prop where
  arrays : ∀ addr, g.vertexNum ≤ addr → s.ramData[addr]? = image[addr]?
  ngbs : ∀ vidx ∈ s.ngbs, ∃ v, v < g.vertexNum ∧ vidx = (v : Int)

theorem Kept.step (vertex : ∀ k < g.edgeNum, ∀ vidx,
      getIntFromRam image ((Gl.layout g).ciaoMemAddr + 4 * k) = some vidx →
      ∃ v, v < g.vertexNum ∧ vidx = (v : Int))
    (behind : g.vertexNum ≤ (Gl.layout g).ciaoMemAddr) {before after : SearchState}
    (kept : Kept g image before) (stepped : SearchStep (Gl.layout g) before after) :
    Kept g image after := by
  have origin : (Gl.layout g).depthMemAddr = 0 := rfl
  cases stepped with
  | @setNewStartVertex idx ramData inside updated =>
      refine ⟨fun addr outside => ?_, kept.ngbs⟩
      have inside : idx < g.vertexNum := inside
      rw [← kept.arrays addr outside, (updateRam_spec updated).2 addr,
        if_neg (by simp only [charBytes, List.length_singleton]; omega)]
  | @readNgb k vidx bound read =>
      refine ⟨kept.arrays, fun other membership => ?_⟩
      rcases List.mem_append.mp membership with old | new
      · exact kept.ngbs other old
      · rw [getIntFromRam_congr fun j _ => kept.arrays _ (by omega)] at read
        exact List.mem_singleton.mp new ▸ vertex k bound vidx read
  | @writeDepth vidx op ramData member type start length written =>
      obtain ⟨v, inside, rfl⟩ := kept.ngbs vidx member
      refine ⟨fun addr outside => ?_, kept.ngbs⟩
      rw [← kept.arrays addr outside]
      exact Pairing.reqToRam_outside written (.inr (by omega))

/-- After any number of searches, cleaning leaves the image as `ramInit` has left it:
all depths and the frontier are -1, and the arrays are as they were. -/
theorem cleanRam_restores {data : List (List Int)} (loaded : loadGraph isUgraph data = some g)
    (initialized : ramInit g = some image) {s : SearchState}
    (run : Relation.ReflTransGen (SearchStep (Gl.layout g)) { ramData := image } s) :
    cleanRam (Gl.layout g) s.ramData = some image ∧
      (∀ v, v < g.vertexNum → getCharFromRam image ((Gl.layout g).depthMemAddr + v) = some (-1) ∧
        getIntFromRam image ((Gl.layout g).frontierMemAddr + 4 * v) = some (-1)) := by
  obtain ⟨edges, built, count⟩ := loadGraph_rows loaded
  obtain ⟨outgoing, same⟩ := loadGraph_counts loaded
  have incoming : inCount g.vertices ≤ g.edgeNum := same ▸ outgoing
  obtain ⟨laidOut, _⟩ := ramInit_spec built.vertices_length outgoing initialized
  have vertex : ∀ k < g.edgeNum, ∀ vidx,
      getIntFromRam image ((Gl.layout g).ciaoMemAddr + 4 * k) = some vidx →
      ∃ v, v < g.vertexNum ∧ vidx = (v : Int) := by
    intro k bound vidx read
    refine ciao_vertex built outgoing incoming initialized ?_ bound read
    obtain ⟨pair, member⟩ : ∃ pair, pair ∈ edges := by
      refine List.exists_mem_of_ne_nil _ ?_
      rintro rfl
      simp only [List.length_nil, Nat.zero_mul, ite_self] at count
      omega
    exact Nat.zero_lt_of_lt (built.bound pair member).1
  have behind : g.vertexNum ≤ (Gl.layout g).ciaoMemAddr := by
    have := laidOut.behind
    omega
  have kept : Kept g image s := by
    induction run with
    | refl => exact ⟨fun _ _ => rfl, by simp⟩
    | tail _ stepped inductionHypothesis => exact inductionHypothesis.step vertex behind stepped
  refine ⟨cleanRam_eq built.vertices_length outgoing incoming initialized kept.arrays, ?_⟩
  obtain ⟨_, stored, _⟩ := ramInit_regions built.vertices_length outgoing incoming initialized
  simp only [regions, List.mem_cons, List.not_mem_nil, or_false, forall_eq_or_imp,
    forall_eq] at stored
  obtain ⟨depths, _, _, _, _, frontier⟩ := stored
  intro v bound
  refine ⟨getCharFromRam_stored depths bound, ?_⟩
  rw [getIntFromRam_stored frontier (by rw [List.getElem?_replicate, if_pos bound])]
  rfl

theorem cleanRam_restores_hub : ∃ image started written,
    ramInit hub = some image ∧ setNewStartVertex (Gl.layout hub) 0 image = some started ∧
      (BurstOp.mk .write 7 0 0 1 1 [] [] 0 0 0 0 [1]).reqToRam started = some written ∧
      cleanRam (Gl.layout hub) written = some image := by
  obtain ⟨image, initialized, updated⟩ := hub_started
  obtain ⟨_, _, _, _, backs⟩ := hub_backed
  have size : 515 < hubRam.length :=
    (List.getElem?_eq_some_iff.mp (backs 515 0 (by decide +kernel))).1
  obtain ⟨written, ran, _⟩ := @reqToRam_total (BurstOp.mk .write 7 0 0 1 1 [] [] 0 0 0 0 [1]) hubRam
    rfl (Nat.le_trans (by decide) size)
  have column : (List.range 4).mapM (fun j => hubRam[512 + j]?) = some (intBytes 1) :=
    backs.read (by decide +kernel)
  have read : getIntFromRam hubRam ((Gl.layout hub).ciaoMemAddr + 4 * 0) = some 1 := by
    have address : (Gl.layout hub).ciaoMemAddr + 4 * 0 = 512 := by decide
    rw [address, getIntFromRam, column]
    decide
  have start : SearchStep (Gl.layout hub) { ramData := image } { ramData := hubRam } :=
    .setNewStartVertex (show 0 < hub.vertexNum by decide) updated
  have ngb : SearchStep (Gl.layout hub) { ramData := hubRam }
      { ramData := hubRam, ngbs := [1] } := .readNgb (show 0 < hub.edgeNum by decide) read
  have depth : SearchStep (Gl.layout hub) { ramData := hubRam, ngbs := [1] }
      { ramData := written, ngbs := [1] } :=
    .writeDepth (List.mem_singleton_self 1) rfl rfl rfl ran
  obtain ⟨cleaned, _⟩ :=
    cleanRam_restores hub_loaded initialized (((Relation.ReflTransGen.single start).tail ngb).tail depth)
  exact ⟨image, hubRam, written, initialized, updated, ran, cleaned⟩

/-- So it does after any run of the pipeline, over all levels. -/
theorem cleanRam_paired {pe : Pe} {h : Pairing.History}
    (loaded : loadGraph isUgraph (pairRows edges) = some g) (initialized : ramInit g = some image)
    (arrays : ∀ addr, g.vertexNum ≤ addr → ramData[addr]? = image[addr]?)
    (run : Relation.ReflTransGen (Pairing.Step g) (Pe.reset (Gl.layout g) ramData, {}) (pe, h)) :
    cleanRam (Gl.layout g) pe.ramData = some image := by
  obtain ⟨outgoing, same⟩ := loadGraph_counts loaded
  have holds := Pairing.paired_holds loaded initialized arrays run
  exact cleanRam_eq (loadGraph_builtFrom loaded).vertices_length outgoing (same ▸ outgoing)
    initialized fun addr behind => (holds.arrays addr behind).trans (Pairing.levelled_behind behind)

end Search

end GraphAccelerator
