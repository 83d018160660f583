import XnnpackGemm.Graph

/-!
# Configs, the helpers they consult, and precision detection

`GEMMConfig` and its four subclasses differ in the argument layout (`weight_idx`,
`bias_idx`, `act_idx`), the fused activations and the methods they override. The class
is recorded as `GemmKind` and every method dispatches on it.

The predicates of `quant_utils` and `utils`, `get_shape`, `QuantParams.from_weights`,
`format_target_name` and `get_source_partitions` live outside `gemm_configs.py`. They
are the fields of `Oracles`, and no theorem assumes anything of them. The quantization
predicates inspect a node's target and the operands upstream of it, which no call
rewrites, so they are read as fixed functions of the node.
-/

namespace XnnpackGemm

inductive ConfigPrecisionType where
  | fp32 | staticQuant | dynamicQuant
  deriving DecidableEq, Repr

/-- `QuantParams.from_weights`, as far as `ConvolutionConfig` reads it. -/
structure QuantParams where
  perChannel : Bool
  axis : Int
  deriving DecidableEq, Repr

structure SourcePartition where
  nodes : List Node
  inputNodes : List Node
  outputNodes : List Node
  deriving DecidableEq, Repr

/-- `get_source_partitions(graph, ...)` as an `AddmmConfig` keeps it: the partitions
found and the identity of the graph object whose nodes they hold. -/
structure SrcPartitions where
  graphId : Nat
  partitions : List SourcePartition

structure Oracles where
  isDequant : Node → Bool
  isQuant : Node → Bool
  isDynamicQdq : Node → Bool
  isPerTensor : Node → Bool
  isPerChannel : Node → Bool
  isPerChannelGroup : Node → Bool
  isAffineQdq : Node → Bool
  extractQdqAffineOpArgsForDecomposedOps : Node → List Arg
  isQparam : Node → Bool
  isGetitem : Node → Bool
  /-- `is_param_node(ep, ·)` for the program at hand. -/
  isParamNode : Node → Bool
  isDepthwiseConv : List Nat → Int → Bool → Bool
  getShape : Node → List Nat
  fromWeights : Node → Option QuantParams
  formatTargetName : String → String
  /-- `get_source_partitions(graph, self.linear_modules)`, its values concatenated. -/
  getSourcePartitions : Graph → List SourcePartition

/-- The part of `XNNPartitionerConfig` the GEMM configs read. -/
structure XNNPartitionerConfig where
  enabledPrecisionTypes : List ConfigPrecisionType
  forceNonStaticWeightsForF32Linear : Bool
  checkCommonConstraints : Node → Bool

inductive GemmKind where
  | linear | convolution | addmm | mm
  deriving DecidableEq, Repr

structure GEMMConfig extends XNNPartitionerConfig where
  kind : GemmKind
  weightIdx : Nat
  biasIdx : Option Nat
  actIdx : Nat
  fusedActs : List String
  /-- `AddmmConfig.src_partitions`, filled on the first `get_deps`. -/
  srcPartitions : Option SrcPartitions

def linearConfig (base : XNNPartitionerConfig) : GEMMConfig :=
  { base with kind := .linear, weightIdx := 1, biasIdx := some 2, actIdx := 0,
              fusedActs := ["relu.default", "hardtanh.default"], srcPartitions := none }

def convolutionConfig (base : XNNPartitionerConfig) : GEMMConfig :=
  { base with kind := .convolution, weightIdx := 1, biasIdx := some 2, actIdx := 0,
              fusedActs := ["relu.default", "hardtanh.default"], srcPartitions := none }

def addmmConfig (base : XNNPartitionerConfig) : GEMMConfig :=
  { base with kind := .addmm, weightIdx := 2, biasIdx := some 0, actIdx := 1,
              fusedActs := ["relu.default", "hardtanh.default"], srcPartitions := none }

def mmConfig (base : XNNPartitionerConfig) : GEMMConfig :=
  { addmmConfig base with kind := .mm, biasIdx := none, weightIdx := 1, actIdx := 0 }

def supportedPrecisionTypes : GemmKind → List ConfigPrecisionType
  | .linear => [.dynamicQuant, .fp32, .staticQuant]
  | .convolution | .addmm | .mm => [.fp32, .staticQuant, .dynamicQuant]

/-- Every class supports every precision, so `get_deps`'s support check never fires. -/
@[simp] theorem mem_supportedPrecisionTypes (k : GemmKind) (p : ConfigPrecisionType) :
    p ∈ supportedPrecisionTypes k := by
  cases k <;> cases p <;> decide

/-- `precision == FP32 and self.force_non_static_weights_for_f32_linear`, the guard the
overriding weight resolvers and the bias resolver start with. -/
def GEMMConfig.forcesNonStatic (cfg : GEMMConfig) (p : ConfigPrecisionType) : Bool :=
  p == .fp32 && cfg.forceNonStaticWeightsForF32Linear

@[simp] theorem forcesNonStatic_of_ne {cfg : GEMMConfig} {p : ConfigPrecisionType}
    (h : p ≠ .fp32) : cfg.forcesNonStatic p = false := by
  simp [GEMMConfig.forcesNonStatic, h]

/-- `get_input_node(node, idx)`: `node.args[idx]`, an `IndexError` past the end. -/
def getInputNode (g : Graph) (n : Node) (idx : Nat) : Option Arg :=
  (g.node n).args.get? idx

/-- `get_input_node` followed by a use of the result as a node. -/
def inputNode (g : Graph) (n : Node) (idx : Nat) : Option Node :=
  (getInputNode g n idx).bind Arg.node?

theorem inputNode_eq_some {g : Graph} {n m : Node} {idx : Nat} :
    inputNode g n idx = some m ↔ (g.node n).args.get? idx = some (.node m) := by
  simp [inputNode, getInputNode, Option.bind_eq_some, Arg.node?_eq_some]

section Precision

variable (O : Oracles) (cfg : GEMMConfig) (g : Graph) (n : Node)

/-- `_detect_precision`: FP32 unless the weight is dequantized, then dynamic or static
by the activation. -/
def detectPrecision : Option ConfigPrecisionType := do
  let weight ← inputNode g n cfg.weightIdx
  if !O.isDequant weight then return .fp32
  let activation ← inputNode g n cfg.actIdx
  if O.isDynamicQdq activation then return .dynamicQuant
  return .staticQuant

/-- The policy of `_overwrite_precision`: a quantized precision that is not enabled is
partitioned as FP32 when FP32 is the only precision enabled. -/
def overwrite (enabled : List ConfigPrecisionType) (precision : ConfigPrecisionType) :
    Bool × ConfigPrecisionType :=
  if precision ∉ enabled ∧ enabled = [.fp32] ∧ precision ∈ [.staticQuant, .dynamicQuant]
  then (true, .fp32) else (false, precision)

def overwritePrecision : Option (Bool × ConfigPrecisionType) :=
  (detectPrecision O cfg g n).map (overwrite cfg.enabledPrecisionTypes)

end Precision

theorem overwrite_fst {e : List ConfigPrecisionType} {p : ConfigPrecisionType}
    (h : (overwrite e p).1 = true) : (overwrite e p).2 = .fp32 := by
  unfold overwrite at h ⊢
  split at h
  · rw [if_pos ‹_›]
  · exact absurd h Bool.false_ne_true

end XnnpackGemm
