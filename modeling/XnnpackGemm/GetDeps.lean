import XnnpackGemm.Resolvers

/-!
# `get_deps`, `check_constraints` and `get_node_and_deps`

The program state is the graph and the implicit q/dq tags; an `AddmmConfig` or
`MMConfig` instance also carries its source-partition cache, so every public method
returns the instance it leaves behind.

`get_deps_from_src_partition` installs the walked arguments and the users of the
partition's output on the addmm node, runs `GEMMConfig.get_deps`, and puts the old
arguments and users back. There is no `try`/`finally`: when the inner call raises, the
exception propagates from the faked state. The `set` union and intersection that combine
the deps with the partition are `List.dedup`; Python leaves their order unspecified.
-/

namespace XnnpackGemm

structure State where
  graph : Graph
  /-- The nodes whose `meta` carries the implicit q/dq tag. -/
  tagged : Finset Node

/-- What a call leaves behind: its value (`none` when an exception propagates), the
program state and the config instance. -/
structure Outcome (α : Type) where
  value : Option α
  state : State
  config : GEMMConfig

/-- `is_dequant(dep) or is_quant(dep)`. -/
def Oracles.isQdq (O : Oracles) (d : Node) : Bool := O.isDequant d || O.isQuant d

/-- The tagging loop of `get_deps`: `tag_as_implicit_q_dq` on every q/dq dep. -/
def tagImplicitQDQ (O : Oracles) (deps : List Node) (tagged : Finset Node) : Finset Node :=
  tagged ∪ (deps.filter O.isQdq).toFinset

section GetDeps

variable (O : Oracles) (cfg : GEMMConfig) (n : Node)

/-- `GEMMConfig.get_deps`. -/
def gemmGetDeps (s : State) : Option (Bool × List Node) × State :=
  match resolveDeps O cfg s.graph n with
  | none => (none, s)
  | some (validDeps, deps) =>
    (some (validDeps, deps), { s with tagged := tagImplicitQDQ O deps s.tagged })

/-- `find_partition_args`: follow first inputs until a node without inputs or an input
of the partition. The source loop has no bound; on a graph of `size` nodes a walk that
has not stopped after `size` steps revisits a node and runs forever, `none` here. -/
def findPartitionArgs (P : SourcePartition) (g : Graph) : Nat → Node → Option Node
  | 0, _ => none
  | fuel + 1, node =>
    match allInputNodes (g.node node).args with
    | [] => some node
    | first :: _ => if node ∈ P.inputNodes then some node
      else findPartitionArgs P g fuel first

/-- The loop building `fake_args`; a literal argument raises. -/
def fakeArgs (P : SourcePartition) (g : Graph) (args : List Arg) : Option (List Node) :=
  args.mapM fun a => a.node? >>= findPartitionArgs P g g.size

/-- `self.bias_idx and fake_args[self.bias_idx] not in src_partition.nodes`. Python
truthiness makes it false for `bias_idx = 0` as for `None`, so AddmmConfig never checks
its bias. -/
def biasOutside (P : SourcePartition) (fake : List Node) : Option Bool :=
  match cfg.biasIdx with
  | some biasIdx =>
    if biasIdx != 0 then (fake.get? biasIdx).map fun b => decide (b ∉ P.nodes) else some false
  | none => some false

/-- The validation of `fake_args`: `some out` with the partition's only output node when
it passes, `none` when it fails. -/
def checkSrcPartition (P : SourcePartition) (fake : List Node) : Option (Option Node) := do
  if ← biasOutside cfg P fake then return none
  let act ← fake.get? cfg.actIdx
  if act ∉ P.inputNodes then return none
  let weight ← fake.get? cfg.weightIdx
  if weight ∉ P.nodes ++ P.inputNodes then return none
  return soleElem P.outputNodes

/-- `list(set(deps) & set(P.nodes))` under the force flag, `list(set(deps) | set(P.nodes))`
otherwise. -/
def combineSrcPartition (P : SourcePartition) (deps : List Node) : List Node :=
  if cfg.forceNonStaticWeightsForF32Linear then (deps.filter (· ∈ P.nodes)).dedup
  else (deps ++ P.nodes).dedup

/-- The graph the adapted `get_deps` runs on: `node.args = tuple(fake_args)`, then
`node.users = src_partition.output_nodes[0].users`. -/
def fakedGraph (g : Graph) (fake : List Node) (out : Node) : Graph :=
  let g₁ := g.setArgs n (fake.map .node)
  g₁.setUsers n (g₁.node out).users

/-- `AddmmConfig.get_deps_from_src_partition`. -/
def getDepsFromSrcPartition (P : SourcePartition) (s : State) :
    Option (Bool × List Node) × State :=
  let oldArgs := (s.graph.node n).args
  let oldUsers := (s.graph.node n).users
  match fakeArgs P s.graph oldArgs with
  | none => (none, s)
  | some fake =>
    match checkSrcPartition cfg P fake with
    | none => (none, s)
    | some none => (some (false, []), s)
    | some (some out) =>
      match gemmGetDeps O cfg n { s with graph := fakedGraph n s.graph fake out } with
      | (none, s₂) => (none, s₂)
      | (some (validDeps, deps), s₂) =>
        (some (validDeps, combineSrcPartition cfg P deps),
          { s₂ with graph := (s₂.graph.setArgs n oldArgs).setUsers n oldUsers })

/-- The partition `AddmmConfig.get_deps` adapts `node` of graph `g` to: the last one
whose nodes contain it. `node in partition.nodes` compares node objects, so partitions
found on another graph object contain none of `g`'s nodes. -/
def findSrcPartition (g : Graph) (ps : SrcPartitions) : Option SourcePartition :=
  ps.partitions.foldl
    (fun found P => if ps.graphId = g.id ∧ n ∈ P.nodes then some P else found) none

/-- Partitions found on another graph object give none. -/
theorem findSrcPartition_of_ne {g : Graph} {ps : SrcPartitions} (h : ps.graphId ≠ g.id) :
    findSrcPartition n g ps = none := by
  simp [findSrcPartition, h]

/-- The source partitions the instance uses on this graph: its cache, or a fresh
`get_source_partitions` on first use. -/
def srcPartitionsOf (g : Graph) : SrcPartitions :=
  cfg.srcPartitions.getD ⟨g.id, O.getSourcePartitions g⟩

/-- The instance after `AddmmConfig.get_deps` has filled its cache. -/
def cacheSrcPartitions (g : Graph) : GEMMConfig :=
  { cfg with srcPartitions := some (srcPartitionsOf O cfg g) }

/-- `AddmmConfig.get_deps`. -/
def addmmGetDeps (s : State) : Outcome (Bool × List Node) :=
  let cfg' := cacheSrcPartitions O cfg s.graph
  match findSrcPartition n s.graph (srcPartitionsOf O cfg s.graph) with
  | some P => let r := getDepsFromSrcPartition O cfg' n P s; ⟨r.1, r.2, cfg'⟩
  | none => let r := gemmGetDeps O cfg' n s; ⟨r.1, r.2, cfg'⟩

/-- The source partition `get_deps` adapts `node` to: only AddmmConfig and MMConfig
look for one. -/
def srcPartitionFor (g : Graph) : Option SourcePartition :=
  match cfg.kind with
  | .addmm | .mm => findSrcPartition n g (srcPartitionsOf O cfg g)
  | .linear | .convolution => none

/-- `self.get_deps`, dispatched on the class. -/
def getDeps (s : State) : Outcome (Bool × List Node) :=
  match cfg.kind with
  | .addmm | .mm => addmmGetDeps O cfg n s
  | .linear | .convolution => let r := gemmGetDeps O cfg n s; ⟨r.1, r.2, cfg⟩

/-- `GEMMConfig.check_constraints`. -/
def gemmCheckConstraints (s : State) : Outcome Bool :=
  if !cfg.checkCommonConstraints n then ⟨some false, s, cfg⟩
  else let o := getDeps O cfg n s; ⟨o.value.map Prod.fst, o.state, o.config⟩

/-- The checks `ConvolutionConfig.check_constraints` adds after the generic ones. -/
def convolutionConstraints (g : Graph) : Option Bool := do
  let convStride ← (← getInputNode g n 3).ints?
  if convStride.length > 2 then return false
  let kernelNode ← inputNode g n 1
  let kernelShape := O.getShape kernelNode
  let weightQuantParams := O.fromWeights kernelNode
  let groups ← getInputNode g n 8
  let isTranspose ← getInputNode g n 6
  if (← detectPrecision O cfg g n) = .dynamicQuant then
    if convStride.length != 2 then return false
    if O.isDepthwiseConv kernelShape (← groups.int?) isTranspose.truthy then return false
  if isTranspose.truthy then
    if (← (← getInputNode g n 7).ints?).any (· != 0) then return false
  if isTranspose.truthy then
    if let some wqp := weightQuantParams then
      if wqp.perChannel then
        if 1 < (← groups.int?) || wqp.axis != 1 then return false
  return true

/-- `ConvolutionConfig.check_constraints`. -/
def convolutionCheckConstraints (s : State) : Outcome Bool :=
  let o := gemmCheckConstraints O cfg n s
  match o.value with
  | some true => { o with value := convolutionConstraints O cfg n o.state.graph }
  | _ => o

/-- `self.check_constraints`, dispatched on the class. -/
def checkConstraints (s : State) : Outcome Bool :=
  match cfg.kind with
  | .convolution => convolutionCheckConstraints O cfg n s
  | .linear | .addmm | .mm => gemmCheckConstraints O cfg n s

/-- `GEMMConfig.get_node_and_deps`. -/
def getNodeAndDeps (s : State) : Outcome (List Node) :=
  let o := getDeps O cfg n s
  ⟨o.value.map fun r => n :: r.2, o.state, o.config⟩

/-- The answer of `get_deps_from_src_partition` as a function of the graph. -/
def srcPartitionDeps (P : SourcePartition) (g : Graph) : Option (Bool × List Node) :=
  (fakeArgs P g (g.node n).args).bind fun fake =>
    (checkSrcPartition cfg P fake).bind fun
      | none => some (false, [])
      | some out => (resolveDeps O cfg (fakedGraph n g fake out) n).map fun r =>
          (r.1, combineSrcPartition cfg P r.2)

/-- The answer of `get_deps` as a function of the graph and the instance. -/
def depsOf (g : Graph) : Option (Bool × List Node) :=
  match srcPartitionFor O cfg n g with
  | some P => srcPartitionDeps O cfg n P g
  | none => resolveDeps O cfg g n

end GetDeps

section Paths

variable (O : Oracles) (cfg : GEMMConfig) (n : Node) (s : State)

theorem mem_combineSrcPartition {P : SourcePartition} {D : List Node} {m : Node} :
    m ∈ combineSrcPartition cfg P D ↔ if cfg.forceNonStaticWeightsForF32Linear
      then m ∈ D ∧ m ∈ P.nodes else m ∈ D ∨ m ∈ P.nodes := by
  unfold combineSrcPartition
  split <;> simp [List.mem_dedup]

theorem mem_of_mem_combineSrcPartition {P : SourcePartition} {D : List Node} {m : Node}
    (h : m ∈ combineSrcPartition cfg P D) : m ∈ D ∨ m ∈ P.nodes := by
  rw [mem_combineSrcPartition] at h
  split at h
  · exact .inl h.1
  · exact h

theorem mem_combineSrcPartition_of_union {P : SourcePartition} {D : List Node} {m : Node}
    (hf : cfg.forceNonStaticWeightsForF32Linear = false) (h : m ∈ D ∨ m ∈ P.nodes) :
    m ∈ combineSrcPartition cfg P D := by
  simpa [mem_combineSrcPartition, hf] using h

/-- `get_deps` runs the source-partition adaptation when there is a partition for the
node and `GEMMConfig.get_deps` otherwise. -/
theorem getDeps_run : ((getDeps O cfg n s).value, (getDeps O cfg n s).state) =
    match srcPartitionFor O cfg n s.graph with
    | some P => getDepsFromSrcPartition O cfg n P s
    | none => gemmGetDeps O cfg n s := by
  unfold getDeps addmmGetDeps srcPartitionFor
  split <;> rename_i hk <;> simp only [hk]
  all_goals cases findSrcPartition n s.graph (srcPartitionsOf O cfg s.graph) <;> rfl

theorem getDepsFromSrcPartition_value (P : SourcePartition) :
    (getDepsFromSrcPartition O cfg n P s).1 = srcPartitionDeps O cfg n P s.graph := by
  simp only [getDepsFromSrcPartition, srcPartitionDeps]
  cases fakeArgs P s.graph (s.graph.node n).args with
  | none => rfl
  | some fake =>
    dsimp only [Option.some_bind]
    rcases checkSrcPartition cfg P fake with _ | _ | out
    · rfl
    · rfl
    · dsimp only [Option.some_bind]
      unfold gemmGetDeps
      cases resolveDeps O cfg (fakedGraph n s.graph fake out) n <;> rfl

/-- What `get_deps` answers depends on the graph and the instance only, not on the tags. -/
theorem getDeps_value : (getDeps O cfg n s).value = depsOf O cfg n s.graph := by
  have h := congrArg Prod.fst (getDeps_run O cfg n s)
  simp only at h
  rw [h, depsOf]
  split
  · exact getDepsFromSrcPartition_value O cfg n s _
  · unfold gemmGetDeps; split <;> simp_all

theorem getDeps_config : (getDeps O cfg n s).config =
    match cfg.kind with
    | .addmm | .mm => cacheSrcPartitions O cfg s.graph
    | .linear | .convolution => cfg := by
  unfold getDeps addmmGetDeps
  split <;> rename_i hk <;> simp only [hk]
  all_goals cases findSrcPartition n s.graph (srcPartitionsOf O cfg s.graph) <;> rfl

theorem gemmCheckConstraints_state : (gemmCheckConstraints O cfg n s).state =
    if cfg.checkCommonConstraints n then (getDeps O cfg n s).state else s := by
  unfold gemmCheckConstraints; cases cfg.checkCommonConstraints n <;> rfl

/-- `check_constraints` leaves the state of `get_deps` once the common constraints pass,
and the state it was given otherwise; ConvolutionConfig's own checks only read. -/
theorem checkConstraints_state : (checkConstraints O cfg n s).state =
    if cfg.checkCommonConstraints n then (getDeps O cfg n s).state else s := by
  rw [← gemmCheckConstraints_state]
  unfold checkConstraints convolutionCheckConstraints
  split <;> try rfl
  dsimp only
  split <;> rfl

end Paths

end XnnpackGemm
