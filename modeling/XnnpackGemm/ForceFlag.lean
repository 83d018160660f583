import XnnpackGemm.Frame

/-!
# The force flag across two runs

`force_non_static_weights_for_f32_linear` is read by the bias resolver and by the weight
resolvers of LinearConfig, AddmmConfig and MMConfig, each time behind
`precision == FP32`, and by the source-partition path, which intersects with the
partition under the flag and takes the union otherwise, whatever the precision. Turning
the flag on only drops deps and only turns rejections into acceptances.
-/

namespace XnnpackGemm

/-- The instance with `force_non_static_weights_for_f32_linear` set to `b`. -/
def GEMMConfig.withForce (cfg : GEMMConfig) (b : Bool) : GEMMConfig :=
  { cfg with forceNonStaticWeightsForF32Linear := b }

@[simp] theorem GEMMConfig.withForce_kind (cfg : GEMMConfig) (b : Bool) :
    (cfg.withForce b).kind = cfg.kind := rfl

/-- `x` holds no node `y` lacks and is valid whenever `y` is. -/
def Deps.Below (x y : Deps) : Prop :=
  (∀ m ∈ x.nodes, m ∈ y.nodes) ∧ (y.isValid = true → x.isValid = true)

/-- `a` answers whenever `b` does, with an answer below `b`'s. -/
def DepsBelow (a b : Option Deps) : Prop :=
  ∀ y, b = some y → ∃ x, a = some x ∧ x.Below y

/-- The same two-run order on what `get_deps` answers. -/
def AnswerBelow (a b : Option (Bool × List Node)) : Prop :=
  ∀ v D, b = some (v, D) →
    ∃ v' D', a = some (v', D') ∧ (∀ m ∈ D', m ∈ D) ∧ (v = true → v' = true)

theorem DepsBelow.refl (a : Option Deps) : DepsBelow a a :=
  fun y h => ⟨y, h, fun _ h => h, id⟩

theorem combineRoles_below {b b' w w' : Deps} (a o : Deps) (hb : b.Below b')
    (hw : w.Below w') :
    (∀ m ∈ (combineRoles b w a o).2, m ∈ (combineRoles b' w' a o).2) ∧
      ((combineRoles b' w' a o).1 = true → (combineRoles b w a o).1 = true) := by
  simp only [combineRoles, List.mem_append, Bool.and_eq_true, and_imp]
  refine ⟨fun m hm => ?_, fun hb' hw' ha ho => ⟨⟨⟨hb.2 hb', hw.2 hw'⟩, ha⟩, ho⟩⟩
  rcases hm with ((hm | hm) | hm) | hm
  · exact .inl (.inl (.inl (hb.1 m hm)))
  · exact .inl (.inl (.inr (hw.1 m hm)))
  · exact .inl (.inr hm)
  · exact .inr hm

section Flag

variable (O : Oracles) (cfg : GEMMConfig) (g : Graph) (n : Node) (p : ConfigPrecisionType)

theorem unlessForced_below (x : Option Deps) :
    DepsBelow (unlessForced (cfg.withForce true) p x) (unlessForced (cfg.withForce false) p x) := by
  by_cases hp : p = .fp32
  · intro y _
    exact ⟨.valid [], by simp [unlessForced, GEMMConfig.forcesNonStatic, GEMMConfig.withForce, hp],
      by simp, fun _ => rfl⟩
  · simp only [unlessForced_of_ne hp]
    exact .refl x

theorem getBiasDeps_below :
    DepsBelow (getBiasDeps O (cfg.withForce true) g n p) (getBiasDeps O (cfg.withForce false) g n p) :=
  unlessForced_below cfg p _

theorem getWeightDeps_below :
    DepsBelow (getWeightDeps O (cfg.withForce true) g n p)
      (getWeightDeps O (cfg.withForce false) g n p) := by
  unfold getWeightDeps
  simp only [GEMMConfig.withForce_kind]
  cases cfg.kind
  · exact unlessForced_below cfg p _
  · exact .refl _
  · exact unlessForced_below cfg p _
  · simp only [mmWeightDeps_eq_addmm]
    exact unlessForced_below cfg p _

theorem resolveDeps_below :
    AnswerBelow (resolveDeps O (cfg.withForce true) g n) (resolveDeps O (cfg.withForce false) g n) := by
  intro v D h
  rw [resolveDeps_eq] at h ⊢
  obtain ⟨r, hr, h⟩ := Option.bind_eq_some.mp h
  obtain ⟨b', hb', h⟩ := Option.bind_eq_some.mp h
  obtain ⟨w', hw', h⟩ := Option.bind_eq_some.mp h
  obtain ⟨a, ha, h⟩ := Option.map_eq_some'.mp h
  obtain ⟨b, hb, hbb⟩ := getBiasDeps_below O cfg g n r.2 b' hb'
  obtain ⟨w, hw, hww⟩ := getWeightDeps_below O cfg g n r.2 w' hw'
  have hc := combineRoles_below a (getOutputDeps O (cfg.withForce false) g n r.2) hbb hww
  rw [h] at hc
  exact ⟨_, _, by simp only [show overwritePrecision O (cfg.withForce true) g n = some r from hr,
    Option.some_bind, hb, hw, show getActDeps O (cfg.withForce true) g n r.2 = some a from ha,
    Option.map_some']; rfl, hc.1, hc.2⟩

@[simp] theorem checkSrcPartition_withForce (b : Bool) (P : SourcePartition) (fake : List Node) :
    checkSrcPartition (cfg.withForce b) P fake = checkSrcPartition cfg P fake := rfl

theorem srcPartitionDeps_below (P : SourcePartition) :
    AnswerBelow (srcPartitionDeps O (cfg.withForce true) n P g)
      (srcPartitionDeps O (cfg.withForce false) n P g) := by
  intro v D h
  unfold srcPartitionDeps at h ⊢
  obtain ⟨fake, hf, h⟩ := Option.bind_eq_some.mp h
  obtain ⟨c, hc, h⟩ := Option.bind_eq_some.mp h
  simp only [checkSrcPartition_withForce] at hc
  simp only [hf, checkSrcPartition_withForce, hc, Option.some_bind]
  cases c with
  | none =>
    obtain ⟨rfl, rfl⟩ := Prod.mk.inj (Option.some.inj h).symm
    exact ⟨false, [], rfl, fun _ h => h, id⟩
  | some out =>
    obtain ⟨r, hr, h⟩ := Option.map_eq_some'.mp h
    obtain ⟨v', D', hr', -, hv⟩ := resolveDeps_below O cfg (fakedGraph n g fake out) n r.1 r.2 hr
    simp only [Prod.mk.injEq] at h
    obtain ⟨rfl, rfl⟩ := h
    refine ⟨v', combineSrcPartition (cfg.withForce true) P D', by simp only [hr', Option.map_some'],
      fun m hm => ?_, hv⟩
    have hm := (mem_combineSrcPartition (cfg.withForce true)).mp hm
    simp only [GEMMConfig.withForce, if_true] at hm
    exact mem_combineSrcPartition_of_union (cfg.withForce false) rfl (.inr hm.2)

@[simp] theorem srcPartitionFor_withForce (b : Bool) :
    srcPartitionFor O (cfg.withForce b) n g = srcPartitionFor O cfg n g := rfl

theorem depsOf_below :
    AnswerBelow (depsOf O (cfg.withForce true) n g) (depsOf O (cfg.withForce false) n g) := by
  rw [depsOf, depsOf, srcPartitionFor_withForce, srcPartitionFor_withForce]
  cases srcPartitionFor O cfg n g with
  | some P => exact srcPartitionDeps_below O cfg g n P
  | none => exact resolveDeps_below O cfg g n

/-- Off the source-partition path the flag is read only behind `precision == FP32`, so
at a quantized precision the two runs resolve alike. -/
theorem resolveDeps_withForce_of_quant {r : Bool × ConfigPrecisionType}
    (hr : overwritePrecision O cfg g n = some r) (hq : r.2 ≠ .fp32) :
    resolveDeps O (cfg.withForce true) g n = resolveDeps O (cfg.withForce false) g n := by
  have hb : ∀ b, getBiasDeps O (cfg.withForce b) g n r.2 = getBiasDeps O cfg g n r.2 :=
    fun b => by unfold getBiasDeps; rw [unlessForced_of_ne hq, unlessForced_of_ne hq]; rfl
  have hw : ∀ b, getWeightDeps O (cfg.withForce b) g n r.2 = getWeightDeps O cfg g n r.2 :=
    fun b => by
      unfold getWeightDeps mmWeightDeps linearWeightDeps addmmWeightDeps
      simp only [GEMMConfig.withForce_kind, unlessForced_of_ne hq]
      rfl
  rw [resolveDeps_eq, resolveDeps_eq]
  show (overwritePrecision O cfg g n).bind _ = (overwritePrecision O cfg g n).bind _
  simp only [hr, Option.some_bind, hb, hw]
  rfl

end Flag

/-- Turning the force flag on only drops deps and only turns rejections into
acceptances: whenever `get_deps` answers with the flag off, it answers with the flag
on, with no node the first answer lacks, and valid if the first answer was. -/
theorem getDeps_withForce_below (O : Oracles) (cfg : GEMMConfig) (n : Node) (s : State)
    {v : Bool} {deps : List Node}
    (h : (getDeps O (cfg.withForce false) n s).value = some (v, deps)) :
    ∃ v' deps', (getDeps O (cfg.withForce true) n s).value = some (v', deps') ∧
      (∀ m ∈ deps', m ∈ deps) ∧ (v = true → v' = true) := by
  rw [getDeps_value] at h ⊢
  exact depsOf_below O cfg s.graph n v deps h

/-- Where `get_deps` resolves directly (LinearConfig, ConvolutionConfig, or a node in no
linear source partition), an answer at a quantized precision is the same with the force
flag on or off. -/
theorem getDeps_withForce_eq_of_quant (O : Oracles) (cfg : GEMMConfig) (n : Node) (s : State)
    {r : Bool × ConfigPrecisionType} (hP : srcPartitionFor O cfg n s.graph = none)
    (hr : overwritePrecision O cfg s.graph n = some r) (hq : r.2 ≠ .fp32) :
    (getDeps O (cfg.withForce true) n s).value = (getDeps O (cfg.withForce false) n s).value := by
  rw [getDeps_value, getDeps_value, depsOf, depsOf, srcPartitionFor_withForce,
    srcPartitionFor_withForce, hP]
  exact resolveDeps_withForce_of_quant O cfg s.graph n hr hq

/-- A statically quantized linear decomposed into `permute` and `addmm`: `x`, `qx`, `dqx`,
`w`, `dqw`, `p = permute(dqw)`, `b`, `addmm(b, dqx, p)`, `qo`, `output`. -/
def staticQuantLinearGraph : Graph := Graph.ofList 1
  [⟨.placeholder, "x", [], {1}⟩,
   ⟨.callFunction, "quantize_per_tensor.default", [.node 0], {2}⟩,
   ⟨.callFunction, "dequantize_per_tensor.default", [.node 1], {7}⟩,
   ⟨.placeholder, "w", [], {4}⟩,
   ⟨.callFunction, "dequantize_per_tensor.default", [.node 3], {5}⟩,
   ⟨.callFunction, "permute_copy.default", [.node 4, .ints [1, 0]], {7}⟩,
   ⟨.placeholder, "b", [], {7}⟩,
   ⟨.callFunction, "addmm.default", [.node 6, .node 2, .node 5], {8}⟩,
   ⟨.callFunction, "quantize_per_tensor.default", [.node 7], {9}⟩,
   ⟨.output, "output", [.node 8], ∅⟩]

def staticQuantLinearPartition : SourcePartition := ⟨[5, 7], [6, 2, 4], [7]⟩

def staticQuantOracles : Oracles :=
  .listing [1, 8] [2, 4] [4] [3, 6] [staticQuantLinearPartition]

theorem getDeps_withForce_below_staticQuant :
    let cfg := addmmConfig ⟨[.staticQuant], false, fun _ => true⟩
    (getDeps staticQuantOracles (cfg.withForce false) 7 ⟨staticQuantLinearGraph, ∅⟩).value =
      some (true, [6, 4, 3, 2, 8, 5, 7]) ∧
    ∃ v' deps', (getDeps staticQuantOracles (cfg.withForce true) 7
        ⟨staticQuantLinearGraph, ∅⟩).value = some (v', deps') ∧
      (∀ m ∈ deps', m ∈ [6, 4, 3, 2, 8, 5, 7]) ∧ (true = true → v' = true) :=
  ⟨by decide, getDeps_withForce_below staticQuantOracles
    (addmmConfig ⟨[.staticQuant], false, fun _ => true⟩) 7 ⟨staticQuantLinearGraph, ∅⟩
    (by decide)⟩

/-- LinearConfig on the linear the quantized addmm stands for: node 7 with arguments
`(dqx, dqw, b)` and the users of the partition's output. -/
theorem getDeps_withForce_eq_of_quant_staticQuant :
    srcPartitionFor staticQuantOracles (linearConfig ⟨[.staticQuant], false, fun _ => true⟩) 7
      (fakedGraph 7 staticQuantLinearGraph [2, 4, 6] 7) = none ∧
    overwritePrecision staticQuantOracles (linearConfig ⟨[.staticQuant], false, fun _ => true⟩)
      (fakedGraph 7 staticQuantLinearGraph [2, 4, 6] 7) 7 = some (false, .staticQuant) ∧
    (getDeps staticQuantOracles
        ((linearConfig ⟨[.staticQuant], false, fun _ => true⟩).withForce true) 7
        ⟨fakedGraph 7 staticQuantLinearGraph [2, 4, 6] 7, ∅⟩).value =
      (getDeps staticQuantOracles
        ((linearConfig ⟨[.staticQuant], false, fun _ => true⟩).withForce false) 7
        ⟨fakedGraph 7 staticQuantLinearGraph [2, 4, 6] 7, ∅⟩).value :=
  ⟨rfl, by decide, @getDeps_withForce_eq_of_quant staticQuantOracles
    (linearConfig ⟨[.staticQuant], false, fun _ => true⟩) 7
    ⟨fakedGraph 7 staticQuantLinearGraph [2, 4, 6] 7, ∅⟩ (false, .staticQuant) rfl (by decide)
    (by decide)⟩

/-- At static quantization the source-partition path still reads the flag: the
intersection with the partition keeps none of the deps the union returns. -/
theorem getDeps_staticQuant_reads_force :
    overwritePrecision staticQuantOracles (addmmConfig ⟨[.staticQuant], false, fun _ => true⟩)
      (fakedGraph 7 staticQuantLinearGraph [6, 2, 4] 7) 7 = some (false, .staticQuant) ∧
    (getDeps staticQuantOracles ((addmmConfig ⟨[.staticQuant], false, fun _ => true⟩).withForce
      false) 7 ⟨staticQuantLinearGraph, ∅⟩).value = some (true, [6, 4, 3, 2, 8, 5, 7]) ∧
    (getDeps staticQuantOracles ((addmmConfig ⟨[.staticQuant], false, fun _ => true⟩).withForce
      true) 7 ⟨staticQuantLinearGraph, ∅⟩).value = some (true, []) := by
  decide

end XnnpackGemm
