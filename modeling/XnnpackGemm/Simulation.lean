import XnnpackGemm.Cluster

/-!
# The adaptation against the linear it stands for

`get_deps_from_src_partition` runs the generic `get_deps` on the addmm node with its
arguments walked back to the partition's boundary, in addmm order `(bias, mat1, mat2)`,
and the users of the partition's output. In a graph whose inputs come first, the
resolvers read the node only through the operands at their role indices and through its
users, and read every other node unchanged. So unless LinearConfig's weight resolver would
drop an overwritten FP32 weight, the answer is LinearConfig's on the linear with the same
operands, `(act, weight, bias)`, and the same users, united with the partition.
-/

namespace XnnpackGemm

/-- Two graphs that differ at most in the arguments of `n`. -/
structure Graph.SameBut (g₁ g₂ : Graph) (n : Node) : Prop where
  node : ∀ m, m ≠ n → g₁.node m = g₂.node m
  op : (g₁.node n).op = (g₂.node n).op
  target : (g₁.node n).target = (g₂.node n).target
  users : (g₁.node n).users = (g₂.node n).users

/-- Faking the same nodes in two orders gives graphs that differ only in `n`'s arguments:
the setter relinks users by membership alone. -/
theorem fakedGraph_sameBut (g : Graph) (n out : Node) {f₁ f₂ : List Node}
    (hf : ∀ m, m ∈ f₁ ↔ m ∈ f₂) : (fakedGraph n g f₁ out).SameBut (fakedGraph n g f₂ out) n := by
  have hr : ∀ m, relink n (allInputNodes (g.node n).args) (allInputNodes (f₁.map .node)) m
      (g.node m).users =
      relink n (allInputNodes (g.node n).args) (allInputNodes (f₂.map .node)) m (g.node m).users :=
    fun m => relink_congr fun k => by simp only [mem_allInputNodes_map_node, hf]
  refine ⟨fun m hm => ?_, by simp [fakedGraph], by simp [fakedGraph], by simp [fakedGraph, hr]⟩
  ext1 <;> simp [fakedGraph, setUsers_users_of_ne _ _ _ _ hm, setArgs_args_of_ne _ _ _ _ hm, hr]

/-- Two instances that find the same operands of `n` at their role indices and agree on
the other fields the resolvers read. -/
structure SameRoles (cfg₁ cfg₂ : GEMMConfig) (g₁ g₂ : Graph) (n : Node) : Prop where
  weight : inputNode g₁ n cfg₁.weightIdx = inputNode g₂ n cfg₂.weightIdx
  act : inputNode g₁ n cfg₁.actIdx = inputNode g₂ n cfg₂.actIdx
  bias : cfg₁.biasIdx.map (getInputNode g₁ n) = cfg₂.biasIdx.map (getInputNode g₂ n)
  inputs : (allInputNodes (g₁.node n).args).length = (allInputNodes (g₂.node n).args).length
  enabled : cfg₁.enabledPrecisionTypes = cfg₂.enabledPrecisionTypes
  force : cfg₁.forceNonStaticWeightsForF32Linear = cfg₂.forceNonStaticWeightsForF32Linear
  fusedActs : cfg₁.fusedActs = cfg₂.fusedActs

section Congr

variable (O : Oracles) {cfg₁ cfg₂ : GEMMConfig} {g₁ g₂ : Graph} {n : Node}
  (hr : SameRoles cfg₁ cfg₂ g₁ g₂ n) (p : ConfigPrecisionType)
include hr

omit hr in
theorem Graph.SameBut.inputNode (hs : g₁.SameBut g₂ n) {k : Node} (hk : k ≠ n) (i : Nat) :
    inputNode g₁ k i = inputNode g₂ k i := by
  simp only [XnnpackGemm.inputNode, getInputNode, hs.node k hk]

omit hr in
theorem Graph.SameBut.users_eq (hs : g₁.SameBut g₂ n) (m : Node) :
    (g₁.node m).users = (g₂.node m).users := by
  by_cases h : m = n
  · subst h; exact hs.users
  · rw [hs.node m h]

theorem getOutputDeps_congr (hs : g₁.SameBut g₂ n) :
    getOutputDeps O cfg₁ g₁ n p = getOutputDeps O cfg₂ g₂ n p := by
  have hf : ∀ m, isFusedAct O cfg₁ g₁ m = isFusedAct O cfg₂ g₂ m := fun m => by
    by_cases h : m = n
    · subst h; simp only [isFusedAct, hs.op, hs.target, hr.fusedActs]
    · simp only [isFusedAct, hs.node m h, hr.fusedActs]
  simp only [getOutputDeps, hs.users_eq, hf]

theorem detectPrecision_congr : detectPrecision O cfg₁ g₁ n = detectPrecision O cfg₂ g₂ n := by
  simp only [detectPrecision, hr.weight, hr.act]

theorem overwritePrecision_congr :
    overwritePrecision O cfg₁ g₁ n = overwritePrecision O cfg₂ g₂ n := by
  simp only [overwritePrecision, detectPrecision_congr O hr, hr.enabled]

theorem getBiasDeps_congr : getBiasDeps O cfg₁ g₁ n p = getBiasDeps O cfg₂ g₂ n p := by
  have hb := hr.bias
  unfold getBiasDeps unlessForced GEMMConfig.forcesNonStatic
  rw [hr.force, hr.inputs]
  rcases h₁ : cfg₁.biasIdx with _ | i₁ <;> rcases h₂ : cfg₂.biasIdx with _ | i₂ <;>
    simp only [h₁, h₂, Option.map_none', Option.map_some', reduceCtorEq, Option.some.injEq] at hb ⊢
  rw [hb]

theorem gemmWeightDeps_congr (hs : g₁.SameBut g₂ n) (hg : g₁.InputsBefore) :
    gemmWeightDeps O cfg₁ g₁ n p = gemmWeightDeps O cfg₂ g₂ n p := by
  unfold gemmWeightDeps
  rw [← hr.weight]
  refine ite_congr rfl (fun _ => rfl) fun _ => ?_
  cases hdq : inputNode g₁ n cfg₁.weightIdx with
  | none => rfl
  | some dq =>
    have hne := (inputNode_lt hg hdq).ne
    dsimp only [bind, Option.bind]
    simp only [hs.inputNode hne, hs.node dq hne]

theorem getActDeps_congr (hs : g₁.SameBut g₂ n) (hg : g₁.InputsBefore)
    (hx : ∀ q m, Arg.node m ∈ O.extractQdqAffineOpArgsForDecomposedOps q → m < q) :
    getActDeps O cfg₁ g₁ n p = getActDeps O cfg₂ g₂ n p := by
  unfold getActDeps
  rw [← hr.act]
  refine ite_congr rfl (fun _ => rfl) fun _ => ?_
  cases hdq : inputNode g₁ n cfg₁.actIdx with
  | none => rfl
  | some dq =>
    have hdqn := inputNode_lt hg hdq
    dsimp only [bind, Option.bind]
    simp only [hs.inputNode hdqn.ne]
    cases hq : inputNode g₂ dq 0 with
    | none => rfl
    | some q =>
      have hqn : q < n := (inputNode_lt hg ((hs.inputNode hdqn.ne 0).trans hq)).trans hdqn
      simp only [hs.node q hqn.ne]
      have hargs : ∀ m, Arg.node m ∈ (if O.isAffineQdq q
          then O.extractQdqAffineOpArgsForDecomposedOps q else (g₂.node q).args) → m ≠ n :=
        fun m hm => by
        split at hm
        · exact ((hx q m hm).trans hqn).ne
        · exact ((hg m q (by rw [hs.node q hqn.ne]; exact mem_allInputNodes.mpr hm)).trans hqn).ne
      generalize (if O.isAffineQdq q then O.extractQdqAffineOpArgsForDecomposedOps q
        else (g₂.node q).args) = qArgs at hargs ⊢
      cases h₁ : qArgs.get? 1 with
      | none => rfl
      | some a₁ =>
        cases a₁ <;> try rfl
        rename_i getitem1
        simp only [hs.inputNode (hargs getitem1 (List.get?_mem h₁))]

end Congr

theorem length_allInputNodes_map_node {f₁ f₂ : List Node} (h : ∀ m, m ∈ f₁ ↔ m ∈ f₂) :
    (allInputNodes (f₁.map .node)).length = (allInputNodes (f₂.map .node)).length := by
  simp only [length_allInputNodes]
  congr 1
  ext m
  simp [Arg.node?_eq_some, h]

/-- Each walked argument is the end of the walk from one of the node's arguments. -/
theorem mem_fakeArgs {P : SourcePartition} {g : Graph} :
    ∀ {args : List Arg} {fake : List Node}, fakeArgs P g args = some fake → ∀ y ∈ fake,
      ∃ x, Arg.node x ∈ args ∧ findPartitionArgs P g g.size x = some y := by
  intro args
  induction args with
  | nil =>
    intro fake h
    simp only [fakeArgs, List.mapM_nil, Option.pure_def, Option.some.injEq] at h
    simp [← h]
  | cons a args ih =>
    intro fake h y hy
    simp only [fakeArgs, List.mapM_cons, Option.bind_eq_bind, Option.bind_eq_some, Option.pure_def,
      Option.some.injEq] at h
    obtain ⟨y', ⟨x, hx, hw⟩, rest, hrest, rfl⟩ := h
    rcases List.mem_cons.mp hy with rfl | hy
    · exact ⟨x, by rw [← Arg.node?_eq_some.mp hx]; exact List.mem_cons_self _ _, hw⟩
    · obtain ⟨x, hx, hw⟩ := ih hrest y hy
      exact ⟨x, List.mem_cons_of_mem _ hx, hw⟩

theorem inputsBefore_fakedGraph {g : Graph} {n out : Node} {fake : List Node}
    (hg : g.InputsBefore) (hf : ∀ y ∈ fake, y < n) : (fakedGraph n g fake out).InputsBefore := by
  intro m k hm
  by_cases hk : k = n
  · subst hk
    simp only [fakedGraph, setUsers_args, setArgs_args_self, mem_allInputNodes_map_node] at hm
    exact hf m hm
  · simp only [fakedGraph, setUsers_args, setArgs_args_of_ne _ _ _ _ hk] at hm
    exact hg m k hm

theorem mem_addmm_order_iff (b a w m : Node) : m ∈ [b, a, w] ↔ m ∈ [a, w, b] := by
  simp only [List.mem_cons, List.not_mem_nil, or_false]
  tauto

/-- The addmm node faked with `(bias, act, weight)` and the linear faked with
`(act, weight, bias)` present the same operands in their roles. -/
theorem sameRoles_addmm_linear (pc : XNNPartitionerConfig) (g : Graph) (n out b a w : Node) :
    SameRoles (addmmConfig pc) (linearConfig pc) (fakedGraph n g [b, a, w] out)
      (fakedGraph n g [a, w, b] out) n := by
  refine ⟨?_, ?_, ?_, ?_, rfl, rfl, rfl⟩
  · simp [inputNode, getInputNode, fakedGraph, addmmConfig, linearConfig]
  · simp [inputNode, getInputNode, fakedGraph, addmmConfig, linearConfig]
  · simp [getInputNode, fakedGraph, addmmConfig, linearConfig]
  · simp only [fakedGraph, setUsers_args, setArgs_args_self]
    exact length_allInputNodes_map_node (mem_addmm_order_iff b a w)

/-- Away from the FP32 override, the adaptation answers what LinearConfig answers on the
linear it stands for, united with the partition. -/
theorem srcPartitionDeps_eq_linear (O : Oracles) (pc : XNNPartitionerConfig) (g : Graph)
    (n : Node) (P : SourcePartition) {b a w out : Node} (hg : g.InputsBefore)
    (hx : ∀ q m, Arg.node m ∈ O.extractQdqAffineOpArgsForDecomposedOps q → m < q)
    (hf : pc.forceNonStaticWeightsForF32Linear = false)
    (hfake : fakeArgs P g (g.node n).args = some [b, a, w])
    (hcheck : checkSrcPartition (addmmConfig pc) P [b, a, w] = some (some out))
    (hov : ∀ r, overwritePrecision O (linearConfig pc) (fakedGraph n g [a, w, b] out) n = some r →
      r.1 = false) :
    srcPartitionDeps O (addmmConfig pc) n P g =
      (resolveDeps O (linearConfig pc) (fakedGraph n g [a, w, b] out) n).map fun r =>
        (r.1, combineSrcPartition (addmmConfig pc) P r.2) := by
  have hlt : ∀ y ∈ [b, a, w], y < n := fun y hy => by
    obtain ⟨x, hx, hw⟩ := mem_fakeArgs hfake y hy
    exact (findPartitionArgs_le hg _ x y hw).trans_lt (hg x n (mem_allInputNodes.mpr hx))
  have hs := fakedGraph_sameBut g n out (mem_addmm_order_iff b a w)
  have hgA := @inputsBefore_fakedGraph g n out [b, a, w] hg hlt
  have hr := sameRoles_addmm_linear pc g n out b a w
  simp only [srcPartitionDeps, hfake, hcheck, Option.some_bind]
  congr 1
  rw [resolveDeps_eq, resolveDeps_eq, overwritePrecision_congr O hr]
  refine Option.bind_congr fun r hmem => ?_
  have hweight : getWeightDeps O (addmmConfig pc) (fakedGraph n g [b, a, w] out) n r.2 =
      getWeightDeps O (linearConfig pc) (fakedGraph n g [a, w, b] out) n r.2 := by
    change addmmWeightDeps O _ _ n r.2 = linearWeightDeps O _ _ n r.2
    have hnf : ∀ cfg : GEMMConfig, cfg.forceNonStaticWeightsForF32Linear = false →
        ∀ inner, unlessForced cfg r.2 inner = inner := fun cfg h inner => by
      simp [unlessForced, GEMMConfig.forcesNonStatic, h]
    rw [addmmWeightDeps, linearWeightDeps, hnf _ hf, hnf _ hf, Option.mem_def.mp hmem]
    simp only [Option.bind_eq_bind, Option.some_bind, hov r hmem, Bool.and_false, if_false]
    exact gemmWeightDeps_congr O hr r.2 hs hgA
  rw [getBiasDeps_congr O hr r.2, hweight, getActDeps_congr O hr r.2 hs hgA hx,
    getOutputDeps_congr O hr r.2 hs]

/-- AddmmConfig's `get_deps` on a node of a linear source partition, with the force flag
off and no FP32 override, returns `(v, D ∪ P.nodes)` where `(v, D)` is what LinearConfig's
`get_deps` returns for the linear whose activation, weight and bias are the boundary-walk
results of the addmm's `mat1`, `mat2` and bias and whose users are those of the
partition's output node. -/
theorem getDeps_addmm_simulates_linear (O : Oracles) (pc : XNNPartitionerConfig) (n : Node)
    (s : State) (P : SourcePartition) {b a w out : Node}
    (hP : srcPartitionFor O (addmmConfig pc) n s.graph = some P) (hg : s.graph.InputsBefore)
    (hx : ∀ q m, Arg.node m ∈ O.extractQdqAffineOpArgsForDecomposedOps q → m < q)
    (hf : pc.forceNonStaticWeightsForF32Linear = false)
    (hfake : fakeArgs P s.graph (s.graph.node n).args = some [b, a, w])
    (hcheck : checkSrcPartition (addmmConfig pc) P [b, a, w] = some (some out))
    (hov : ∀ r, overwritePrecision O (linearConfig pc) (fakedGraph n s.graph [a, w, b] out) n =
      some r → r.1 = false) :
    (getDeps O (addmmConfig pc) n s).value =
      (getDeps O (linearConfig pc) n ⟨fakedGraph n s.graph [a, w, b] out, s.tagged⟩).value.map
        fun r => (r.1, combineSrcPartition (addmmConfig pc) P r.2) := by
  rw [getDeps_value, getDeps_value, depsOf, hP]
  exact srcPartitionDeps_eq_linear O pc s.graph n P hg hx hf hfake hcheck hov

theorem getDeps_addmm_simulates_linear_staticQuant :
    (getDeps staticQuantOracles (addmmConfig ⟨[.staticQuant], false, fun _ => true⟩) 7
        ⟨staticQuantLinearGraph, ∅⟩).value =
      (getDeps staticQuantOracles (linearConfig ⟨[.staticQuant], false, fun _ => true⟩) 7
        ⟨fakedGraph 7 staticQuantLinearGraph [2, 4, 6] 7, ∅⟩).value.map
          fun r => (r.1, combineSrcPartition (addmmConfig ⟨[.staticQuant], false, fun _ => true⟩)
            staticQuantLinearPartition r.2) :=
  getDeps_addmm_simulates_linear staticQuantOracles ⟨[.staticQuant], false, fun _ => true⟩ 7
    ⟨staticQuantLinearGraph, ∅⟩ staticQuantLinearPartition (by decide)
    (Graph.ofList_inputsBefore (by decide)) (fun _ _ h => by simp [staticQuantOracles,
      Oracles.listing] at h) rfl (by decide) (by decide) fun r h => by
        rw [show overwritePrecision staticQuantOracles _ _ 7 = some (false, .staticQuant) by
          decide] at h
        cases h
        rfl

end XnnpackGemm
