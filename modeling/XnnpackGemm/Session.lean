import XnnpackGemm.PartitionWalk

/-!
# A partitioner's run of calls

The partitioner holds one instance of each class and calls `check_constraints`,
`get_deps` and `get_node_and_deps` on them, node after node, over a program. The calls
share the graph (the source-partition path swaps a node's arguments and users), the
implicit-q/dq tags, and each instance's source-partition cache. As long as every call
returns, each answers what it answers on fresh instances over the original graph. A call
that raises between the swap and the restore leaves the swap behind, and a cache filled
on one program is kept for the next, where its partitions hold none of the nodes.
-/

namespace XnnpackGemm

/-- The instance of each class the partitioner builds from one `XNNPartitionerConfig`. -/
def configOf (pc : XNNPartitionerConfig) : GemmKind → GEMMConfig
  | .linear => linearConfig pc
  | .convolution => convolutionConfig pc
  | .addmm => addmmConfig pc
  | .mm => mmConfig pc

@[simp] theorem configOf_srcPartitions (pc : XNNPartitionerConfig) (k : GemmKind) :
    (configOf pc k).srcPartitions = none := by
  cases k <;> rfl

/-- The public methods of a config. -/
inductive Method where
  | checkConstraints | getDeps | getNodeAndDeps
  deriving DecidableEq, Repr

/-- A method of the instance of class `kind`, called on `node`. -/
structure Call where
  kind : GemmKind
  method : Method
  node : Node
  deriving DecidableEq, Repr

/-- What a call returns, `none` inside when it raises. -/
inductive Reply where
  | valid (r : Option Bool)
  | deps (r : Option (Bool × List Node))
  | nodes (r : Option (List Node))
  deriving DecidableEq, Repr

def Reply.raised : Reply → Bool
  | .valid r => r.isNone
  | .deps r => r.isNone
  | .nodes r => r.isNone

/-- A call on an instance: its reply, the state it leaves and the instance after it. -/
def Call.run (O : Oracles) (c : Call) (cfg : GEMMConfig) (s : State) :
    Reply × State × GEMMConfig :=
  match c.method with
  | .checkConstraints =>
    let o := checkConstraints O cfg c.node s; (.valid o.value, o.state, o.config)
  | .getDeps => let o := getDeps O cfg c.node s; (.deps o.value, o.state, o.config)
  | .getNodeAndDeps =>
    let o := getNodeAndDeps O cfg c.node s; (.nodes o.value, o.state, o.config)

/-- The graph, the tags and the partitioner's four instances. -/
structure Session where
  state : State
  instances : GemmKind → GEMMConfig

def Session.call (O : Oracles) (S : Session) (c : Call) : Reply × Session :=
  let r := c.run O (S.instances c.kind) S.state
  (r.1, ⟨r.2.1, Function.update S.instances c.kind r.2.2⟩)

/-- The replies of a sequence of calls, each made on the session the earlier ones left. -/
def Session.run (O : Oracles) (S : Session) : List Call → List Reply × Session
  | [] => ([], S)
  | c :: cs =>
    let r := S.call O c
    let rs := r.2.run O cs
    (r.1 :: rs.1, rs.2)

/-- Fresh instances over a program. -/
def Session.fresh (pc : XNNPartitionerConfig) (g : Graph) : Session := ⟨⟨g, ∅⟩, configOf pc⟩

/-- The reply a call gets from fresh instances over `g`. -/
def freshReply (O : Oracles) (pc : XNNPartitionerConfig) (g : Graph) (c : Call) : Reply :=
  ((Session.fresh pc g).call O c).1

section Answers

variable (O : Oracles) (cfg : GEMMConfig) (n : Node)

/-- What `check_constraints` answers, as a function of the graph and the instance. -/
def checkOf (g : Graph) : Option Bool :=
  if !cfg.checkCommonConstraints n then some false
  else match cfg.kind, (depsOf O cfg n g).map Prod.fst with
    | .convolution, some true => convolutionConstraints O cfg n g
    | _, r => r

/-- What a call answers, as a function of the graph and the instance. -/
def Call.answer (c : Call) (g : Graph) : Reply :=
  match c.method with
  | .checkConstraints => .valid (checkOf O cfg c.node g)
  | .getDeps => .deps (depsOf O cfg c.node g)
  | .getNodeAndDeps => .nodes ((depsOf O cfg c.node g).map fun r => c.node :: r.2)

variable (s : State)

theorem gemmCheckConstraints_value : (gemmCheckConstraints O cfg n s).value =
    if !cfg.checkCommonConstraints n then some false
    else (depsOf O cfg n s.graph).map Prod.fst := by
  unfold gemmCheckConstraints; split <;> simp [getDeps_value]

/-- ConvolutionConfig resolves on the graph it is given, so its own checks read that graph. -/
theorem gemmCheckConstraints_graph_of_convolution (hk : cfg.kind = .convolution) :
    (gemmCheckConstraints O cfg n s).state.graph = s.graph := by
  rw [gemmCheckConstraints_state]
  split
  · simp [getDeps, hk]
  · rfl

theorem convolutionCheckConstraints_value : (convolutionCheckConstraints O cfg n s).value =
    match (gemmCheckConstraints O cfg n s).value with
    | some true => convolutionConstraints O cfg n (gemmCheckConstraints O cfg n s).state.graph
    | v => v := by
  unfold convolutionCheckConstraints
  dsimp only
  rcases h : (gemmCheckConstraints O cfg n s).value with _ | _ | _ <;> simp [h]

theorem checkConstraints_value :
    (checkConstraints O cfg n s).value = checkOf O cfg n s.graph := by
  unfold checkConstraints checkOf
  cases hk : cfg.kind
  case convolution =>
    rw [convolutionCheckConstraints_value, gemmCheckConstraints_graph_of_convolution O cfg n s hk,
      gemmCheckConstraints_value]
    cases cfg.checkCommonConstraints n
    · rfl
    · rcases (depsOf O cfg n s.graph).map Prod.fst with _ | _ | _ <;> rfl
  all_goals simp only [gemmCheckConstraints_value]

theorem checkConstraints_config : (checkConstraints O cfg n s).config =
    if cfg.checkCommonConstraints n then (getDeps O cfg n s).config else cfg := by
  have hg : (gemmCheckConstraints O cfg n s).config =
      if cfg.checkCommonConstraints n then (getDeps O cfg n s).config else cfg := by
    unfold gemmCheckConstraints; cases cfg.checkCommonConstraints n <;> rfl
  unfold checkConstraints convolutionCheckConstraints
  split <;> try exact hg
  dsimp only
  split <;> exact hg

theorem Call.run_reply (c : Call) : (c.run O cfg s).1 = c.answer O cfg s.graph := by
  unfold Call.run Call.answer
  cases c.method <;> simp only [checkConstraints_value, getDeps_value, getNodeAndDeps]

theorem getDeps_config_cases : (getDeps O cfg n s).config = cfg ∨
    (getDeps O cfg n s).config = cacheSrcPartitions O cfg s.graph := by
  rw [getDeps_config]; split <;> simp

theorem Call.run_config (c : Call) : (c.run O cfg s).2.2 = cfg ∨
    (c.run O cfg s).2.2 = cacheSrcPartitions O cfg s.graph := by
  unfold Call.run
  cases c.method
  case checkConstraints =>
    simp only [checkConstraints_config]
    split
    · exact getDeps_config_cases O cfg _ s
    · exact .inl rfl
  all_goals exact getDeps_config_cases O cfg _ s

/-- A call that returns leaves the graph as it found it, provided the users of its node
agreed with the node's inputs. -/
theorem Call.run_graph (c : Call)
    (hc : ∀ m, c.node ∈ (s.graph.node m).users ↔ m ∈ allInputNodes (s.graph.node c.node).args) :
    (c.run O cfg s).1.raised = true ∨ (c.run O cfg s).2.1.graph = s.graph := by
  have hd := getDeps_graph O cfg c.node s hc
  rw [getDeps_value] at hd
  unfold Call.run
  cases c.method
  case checkConstraints =>
    simp only [Reply.raised, checkConstraints_value, checkConstraints_state, checkOf]
    cases cfg.checkCommonConstraints c.node
    · exact .inr rfl
    · rcases hd with hd | hd
      · simp [hd]
      · exact .inr hd
  all_goals simpa [Reply.raised, getDeps_value, getNodeAndDeps] using hd

end Answers

section Cache

variable (O : Oracles) (cfg : GEMMConfig) (n : Node) (g : Graph)

theorem srcPartitionFor_withSrcPartitions (c : Option SrcPartitions)
    (h : c.getD ⟨g.id, O.getSourcePartitions g⟩ = srcPartitionsOf O cfg g) :
    srcPartitionFor O { cfg with srcPartitions := c } n g = srcPartitionFor O cfg n g := by
  unfold srcPartitionFor; rw [← h]; rfl

/-- Instances that differ only in their caches, where the caches give the same partitions
on `g`, answer alike on `g`: only the partitions are read from the cache. -/
theorem depsOf_withSrcPartitions (c : Option SrcPartitions)
    (h : c.getD ⟨g.id, O.getSourcePartitions g⟩ = srcPartitionsOf O cfg g) :
    depsOf O { cfg with srcPartitions := c } n g = depsOf O cfg n g := by
  unfold depsOf; rw [srcPartitionFor_withSrcPartitions O cfg n g c h]; rfl

theorem Call.answer_cacheSrcPartitions (c : Call) :
    c.answer O (cacheSrcPartitions O cfg g) g = c.answer O cfg g := by
  have h := depsOf_withSrcPartitions O cfg c.node g (some (srcPartitionsOf O cfg g)) rfl
  unfold Call.answer checkOf
  cases c.method
  case checkConstraints => simp only [cacheSrcPartitions, h]; rfl
  all_goals simp only [cacheSrcPartitions, h]

/-- An instance whose cache was filled on another graph object finds no partition. -/
theorem srcPartitionFor_cacheSrcPartitions_of_ne {g₁ : Graph} (hc : cfg.srcPartitions = none)
    (h : g₁.id ≠ g.id) : srcPartitionFor O (cacheSrcPartitions O cfg g₁) n g = none := by
  have hg : (srcPartitionsOf O (cacheSrcPartitions O cfg g₁) g).graphId ≠ g.id := by
    simpa [srcPartitionsOf, cacheSrcPartitions, hc] using h
  unfold srcPartitionFor
  split <;> first | rfl | exact findSrcPartition_of_ne n hg

@[simp] theorem cacheSrcPartitions_cacheSrcPartitions :
    cacheSrcPartitions O (cacheSrcPartitions O cfg g) g = cacheSrcPartitions O cfg g := rfl

end Cache

/-- The session a run over the program `g` leaves while every call has returned: the
graph is `g`, and each instance is the fresh one, its cache empty or filled from `g`. -/
def Session.Clean (O : Oracles) (pc : XNNPartitionerConfig) (g : Graph) (S : Session) : Prop :=
  S.state.graph = g ∧ ∀ k, S.instances k = configOf pc k ∨
    S.instances k = cacheSrcPartitions O (configOf pc k) g

section Runs

variable (O : Oracles) (pc : XNNPartitionerConfig) (g : FxGraph)

theorem Session.fresh_clean (tagged : Finset Node) :
    Session.Clean O pc g.graph ⟨⟨g.graph, tagged⟩, configOf pc⟩ :=
  ⟨rfl, fun _ => .inl rfl⟩

/-- One call on a clean session answers as on fresh instances and, if it returns, leaves
the session clean. -/
theorem Session.call_of_clean {S : Session} (hS : S.Clean O pc g.graph) (c : Call) :
    (S.call O c).1 = freshReply O pc g.graph c ∧
      ((S.call O c).1.raised = false → (S.call O c).2.Clean O pc g.graph) := by
  obtain ⟨hg, hi⟩ := hS
  have hreply : (S.call O c).1 = freshReply O pc g.graph c := by
    simp only [Session.call, freshReply, Session.fresh, Call.run_reply, hg]
    rcases hi c.kind with h | h <;> rw [h]
    exact Call.answer_cacheSrcPartitions O _ g.graph c
  refine ⟨hreply, fun hr => ⟨?_, fun k => ?_⟩⟩
  · have hc := Call.run_graph O (S.instances c.kind) S.state c
      (by rw [hg]; exact fun m => g.consistent m c.node)
    simp only [Session.call] at hr ⊢
    rw [← hg]
    simpa [hr] using hc
  · simp only [Session.call]
    by_cases hk : k = c.kind
    · subst hk
      rw [Function.update_same]
      rcases Call.run_config O (S.instances c.kind) S.state c with h | h
      · rw [h]; exact hi c.kind
      · rw [h, hg]
        rcases hi c.kind with h' | h' <;> rw [h'] <;> exact .inr rfl
    · rw [Function.update_noteq hk]
      exact hi k

end Runs

/-- The FP32 decomposed linear, whose users are the inverse of its arguments. -/
def fp32LinearFx : FxGraph := ⟨fp32LinearGraph, Graph.ofList_consistent (by decide)⟩

/-- A program calling `torch.addmm` directly: `x`, `w`, `b`, `addmm(b, x, w)`, `output`. -/
def bareAddmmGraph : Graph := Graph.ofList 6
  [⟨.placeholder, "x", [], {3}⟩,
   ⟨.placeholder, "w", [], {3}⟩,
   ⟨.placeholder, "b", [], {3}⟩,
   ⟨.callFunction, "addmm.default", [.node 2, .node 0, .node 1], {4}⟩,
   ⟨.output, "output", [.node 3], ∅⟩]

/-- `get_source_partitions` on the two programs: the linear partition in the decomposed
linear, none in the bare addmm program, which calls no linear module. -/
def twoProgramOracles : Oracles :=
  { fp32LinearOracles with
    getSourcePartitions := fun g => if g.id = fp32LinearGraph.id then [linearPartition] else [] }

/-- An instance that has served a call on `s₁` answers on `s` as a fresh one does when
`s` is the same graph object and `get_source_partitions` finds the same partitions in it;
on another graph object the cached partitions hold none of its nodes, and the instance
answers as `GEMMConfig.get_deps` does, without the adaptation. -/
theorem getDeps_served_eq_fresh (O : Oracles) (cfg : GEMMConfig) (n₁ n : Node) (s₁ s : State)
    (hc : cfg.srcPartitions = none) :
    (s₁.graph.id = s.graph.id → O.getSourcePartitions s₁.graph = O.getSourcePartitions s.graph →
      (getDeps O (getDeps O cfg n₁ s₁).config n s).value = (getDeps O cfg n s).value) ∧
    (s₁.graph.id ≠ s.graph.id →
      (getDeps O (getDeps O cfg n₁ s₁).config n s).value = resolveDeps O cfg s.graph n) := by
  rw [getDeps_value, getDeps_value, getDeps_config]
  cases hk : cfg.kind
  case linear | convolution =>
    have h : srcPartitionFor O cfg n s.graph = none := by unfold srcPartitionFor; rw [hk]
    exact ⟨fun _ _ => rfl, fun _ => by rw [depsOf, h]⟩
  case addmm | mm =>
    refine ⟨fun hid hp => depsOf_withSrcPartitions O cfg n s.graph
      (some (srcPartitionsOf O cfg s₁.graph)) (by simp [srcPartitionsOf, hc, hid, hp]),
      fun hid => ?_⟩
    rw [depsOf, srcPartitionFor_cacheSrcPartitions_of_ne O cfg n s.graph hc hid]
    rfl

theorem getDeps_served_eq_fresh_fp32Linear :
    let cfg := addmmConfig ⟨[.fp32], false, fun _ => true⟩
    cfg.srcPartitions = none ∧
    (getDeps twoProgramOracles (getDeps twoProgramOracles cfg 4 ⟨fp32LinearGraph, ∅⟩).config 4
      ⟨fp32LinearGraph, ∅⟩).value = (getDeps twoProgramOracles cfg 4 ⟨fp32LinearGraph, ∅⟩).value ∧
    (getDeps twoProgramOracles (getDeps twoProgramOracles cfg 3 ⟨bareAddmmGraph, ∅⟩).config 4
      ⟨fp32LinearGraph, ∅⟩).value = resolveDeps twoProgramOracles cfg fp32LinearGraph 4 :=
  ⟨rfl, (getDeps_served_eq_fresh twoProgramOracles _ 4 4 ⟨fp32LinearGraph, ∅⟩
      ⟨fp32LinearGraph, ∅⟩ rfl).1 rfl rfl,
    (getDeps_served_eq_fresh twoProgramOracles _ 3 4 ⟨bareAddmmGraph, ∅⟩
      ⟨fp32LinearGraph, ∅⟩ rfl).2 (by decide)⟩

/-- After serving the bare addmm program, AddmmConfig keeps the partitions it found there,
none, and resolves the decomposed linear's addmm as a plain addmm, rejecting the `permute` as a weight that
is not a static parameter; a fresh instance adapts it to its linear partition. -/
theorem getDeps_served_other_program :
    let cfg := addmmConfig ⟨[.fp32], false, fun _ => true⟩
    (getDeps twoProgramOracles cfg 4 ⟨fp32LinearGraph, ∅⟩).value = some (true, [2, 1, 3, 4]) ∧
    (getDeps twoProgramOracles (getDeps twoProgramOracles cfg 3 ⟨bareAddmmGraph, ∅⟩).config 4
      ⟨fp32LinearGraph, ∅⟩).value = some (false, [2]) := by
  decide

end XnnpackGemm
