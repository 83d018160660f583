import XnnpackGemm.Config

/-!
# The four role resolvers and `get_deps` before tagging

Each resolver reads the graph and nothing else. A `none` is a Python exception (an index
past the end, or a node attribute read on a literal); a rejection is `Deps.invalid`,
which carries the reason the source passes to `why`.
-/

namespace XnnpackGemm

/-- A role resolver's answer: `(True, deps)`, or `(False, [])` after `why(node, why)`. -/
inductive Deps where
  | valid (deps : List Node)
  | invalid (why : String)
  deriving DecidableEq, Repr

def Deps.isValid : Deps → Bool
  | .valid _ => true
  | .invalid _ => false

def Deps.nodes : Deps → List Node
  | .valid deps => deps
  | .invalid _ => []

@[simp] theorem Deps.isValid_valid (ds : List Node) : (Deps.valid ds).isValid = true := rfl
@[simp] theorem Deps.isValid_invalid (w : String) : (Deps.invalid w).isValid = false := rfl
@[simp] theorem Deps.nodes_valid (ds : List Node) : (Deps.valid ds).nodes = ds := rfl
@[simp] theorem Deps.nodes_invalid (w : String) : (Deps.invalid w).nodes = [] := rfl

/-- The guard the overriding weight resolvers start with: a forced non-static FP32
weight is not partitioned; otherwise `inner` decides. -/
def unlessForced (cfg : GEMMConfig) (precision : ConfigPrecisionType) (inner : Option Deps) :
    Option Deps :=
  if cfg.forcesNonStatic precision then some (.valid []) else inner

theorem unlessForced_of_ne {cfg : GEMMConfig} {p : ConfigPrecisionType} {inner : Option Deps}
    (h : p ≠ .fp32) : unlessForced cfg p inner = inner := by
  simp [unlessForced, h]

section Resolvers

variable (O : Oracles) (cfg : GEMMConfig) (g : Graph) (n : Node)
  (precision : ConfigPrecisionType)

/-- `GEMMConfig._get_weight_deps`. -/
def gemmWeightDeps : Option Deps :=
  if precision = .fp32 then do
    let weightNode ← inputNode g n cfg.weightIdx
    if !O.isParamNode weightNode then return .invalid "Expected weight to be a static param"
    return .valid [weightNode]
  else do
    let dequantNode ← inputNode g n cfg.weightIdx
    if !O.isDequant dequantNode then
      return .invalid "Expected  weight to have a dequantized node"
    let weight ← inputNode g dequantNode 0
    if !O.isParamNode weight then return .invalid "Expected weight to be a static param"
    if O.isPerTensor dequantNode && precision == .dynamicQuant then
      return .invalid ("XNNPACK does not support per tensor quantized weights for dynamic " ++
        "quantization of activations")
    if O.isPerChannel dequantNode || O.isPerChannelGroup dequantNode then
      let inputs := allInputNodes (g.node dequantNode).args
      if inputs.length < 2 then
        return .invalid "Expected channel quantized to have scale/zp nodes"
      return .valid ([dequantNode, weight] ++ (inputs.drop 1).take 2)
    return .valid [dequantNode, weight]

/-- `LinearConfig._get_weight_deps`: a weight whose precision was overwritten to FP32 is
not partitioned either. -/
def linearWeightDeps : Option Deps :=
  unlessForced cfg precision do
    let (overwrittenLinearPrecision, newPrecision) ← overwritePrecision O cfg g n
    if newPrecision == .fp32 && overwrittenLinearPrecision then return .valid []
    gemmWeightDeps O cfg g n precision

/-- `AddmmConfig._get_weight_deps`. -/
def addmmWeightDeps : Option Deps :=
  unlessForced cfg precision (gemmWeightDeps O cfg g n precision)

/-- `MMConfig._get_weight_deps`: the guard again, in front of AddmmConfig's. -/
def mmWeightDeps : Option Deps :=
  unlessForced cfg precision (addmmWeightDeps O cfg g n precision)

/-- `self._get_weight_deps`, dispatched on the class. -/
def getWeightDeps : Option Deps :=
  match cfg.kind with
  | .linear => linearWeightDeps O cfg g n precision
  | .convolution => gemmWeightDeps O cfg g n precision
  | .addmm => addmmWeightDeps O cfg g n precision
  | .mm => mmWeightDeps O cfg g n precision

/-- `GEMMConfig._get_bias_deps`. -/
def getBiasDeps : Option Deps :=
  unlessForced cfg precision <|
    match cfg.biasIdx with
    | some biasIdx =>
      if (allInputNodes (g.node n).args).length > 2 then do
        let biasNode ← getInputNode g n biasIdx
        if biasNode.truthy then
          let bias ← biasNode.node?
          if !O.isParamNode bias then return .invalid "Expected bias to be a static param"
          return .valid [bias]
        return .valid []
      else some (.valid [])
    | none => some (.valid [])

/-- `GEMMConfig._get_act_deps`: dequant, and for dynamic quantization the quant node, the
two getitems of its scale and zero point, and the `choose_qparams` they read. -/
def getActDeps : Option Deps :=
  if precision = .fp32 then some (.valid []) else do
    let dqInput ← inputNode g n cfg.actIdx
    if !O.isDequant dqInput then return .invalid "Expected act input to be dequant node"
    if precision = .staticQuant then return .valid [dqInput]
    let qInput ← inputNode g dqInput 0
    if !O.isQuant qInput then return .invalid "Expected  dequant input to be quant node"
    let qInputArgs := if O.isAffineQdq qInput then
      O.extractQdqAffineOpArgsForDecomposedOps qInput else (g.node qInput).args
    match ← qInputArgs.get? 1 with
    | .node getitem1 =>
      match ← qInputArgs.get? 2 with
      | .node getitem2 =>
        if !(O.isGetitem getitem1 && O.isGetitem getitem2) then
          return .invalid "expected getitem node from choose qparam"
        let chooseQparam ← inputNode g getitem1 0
        if !O.isQparam chooseQparam then return .invalid "expected to find choose_qparam node"
        return .valid [dqInput, qInput, getitem1, getitem2, chooseQparam]
      | _ => return .invalid "expected to find getitem node from choose qparam"
    | _ => return .invalid "expected to find getitem node from choose qparam"

/-- `n_output.op == "call_function"` and its target is one of `self.fused_acts`. -/
def isFusedAct (u : Node) : Bool :=
  (g.node u).op == .callFunction && decide (O.formatTargetName (g.node u).target ∈ cfg.fusedActs)

/-- `GEMMConfig._get_output_deps`. -/
def getOutputDeps : Deps :=
  match precision with
  | .staticQuant =>
    match soleUser (g.node n).users with
    | none => .invalid "Expected quantized node to have a single output"
    | some nOutput =>
      let (fused, nOutput) := if isFusedAct O cfg g nOutput then
          ([nOutput], (soleUser (g.node nOutput).users).getD nOutput)
        else ([], nOutput)
      if !O.isQuant nOutput then .invalid "Expected output node to have a dequantized node"
      else .valid (fused ++ [nOutput])
  | .fp32 =>
    match soleUser (g.node n).users with
    | some nOutput => if isFusedAct O cfg g nOutput then .valid [nOutput] else .valid []
    | none => .valid []
  | .dynamicQuant => .valid []

/-- `valid_bias and valid_weight and valid_act and valid_output`, with the four dep lists
chained. -/
def combineRoles (bias weight act output : Deps) : Bool × List Node :=
  (bias.isValid && weight.isValid && act.isValid && output.isValid,
    bias.nodes ++ weight.nodes ++ act.nodes ++ output.nodes)

/-- `GEMMConfig.get_deps` before its tagging loop. -/
def resolveDeps : Option (Bool × List Node) := do
  let precision ← detectPrecision O cfg g n
  if precision ∉ supportedPrecisionTypes cfg.kind then return (false, [])
  let (_, precision) ← overwritePrecision O cfg g n
  let bias ← getBiasDeps O cfg g n precision
  let weight ← getWeightDeps O cfg g n precision
  let act ← getActDeps O cfg g n precision
  return combineRoles bias weight act (getOutputDeps O cfg g n precision)

/-- Every precision is supported, so `get_deps` resolves the four roles at the
overwritten precision. -/
theorem resolveDeps_eq : resolveDeps O cfg g n =
    (overwritePrecision O cfg g n).bind fun r =>
      (getBiasDeps O cfg g n r.2).bind fun bias =>
      (getWeightDeps O cfg g n r.2).bind fun weight =>
      (getActDeps O cfg g n r.2).map fun act =>
        combineRoles bias weight act (getOutputDeps O cfg g n r.2) := by
  unfold resolveDeps overwritePrecision
  cases detectPrecision O cfg g n <;> simp [Option.map_eq_bind]

theorem mmWeightDeps_eq_addmm :
    mmWeightDeps O cfg g n precision = addmmWeightDeps O cfg g n precision := by
  unfold mmWeightDeps addmmWeightDeps unlessForced
  split <;> simp_all

end Resolvers

end XnnpackGemm
