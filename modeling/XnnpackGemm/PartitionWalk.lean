import XnnpackGemm.SrcPartition

/-!
# The walk of `find_partition_args`

`find_partition_args` follows first inputs, `input_node = input_node.all_input_nodes[0]`,
while the node has inputs and is not an input node of the source partition. The loop has
no bound. `PartitionWalk` is its run with no bound, recording the nodes where the body
ran; the fuel model `findPartitionArgs` answers exactly the runs that fit in its fuel.

In a graph whose inputs come first the current node drops at every pass of the body, so
every walk ends, after at most as many passes as the start node's position, and the fuel
`g.size` that `fakeArgs` passes never cuts a walk from a node of the graph. From a node
of the partition, when the partition's input nodes hold every outside input of its nodes,
the walk passes only through the partition's nodes and ends at an input node or at a
partition node with no inputs.
-/

namespace XnnpackGemm

/-- The runs of the `while` loop of `find_partition_args`, with no bound: from `node` the
body runs at the nodes of `path`, in order, and the loop returns `r`. -/
inductive PartitionWalk (P : SourcePartition) (g : Graph) : Node → List Node → Node → Prop
  /-- The loop condition fails: the node has no inputs, or is an input of the partition. -/
  | stop {node : Node} :
      allInputNodes (g.node node).args = [] ∨ node ∈ P.inputNodes →
      PartitionWalk P g node [] node
  /-- The body, `input_node = input_node.all_input_nodes[0]`. -/
  | step {node first : Node} {rest path : List Node} {r : Node} :
      allInputNodes (g.node node).args = first :: rest → node ∉ P.inputNodes →
      PartitionWalk P g first path r → PartitionWalk P g node (node :: path) r

/-- The partition's input nodes hold every input of its nodes that lies outside them. -/
def SourcePartition.InputsClosed (P : SourcePartition) (g : Graph) : Prop :=
  ∀ k ∈ P.nodes, ∀ m ∈ allInputNodes (g.node k).args, m ∉ P.nodes → m ∈ P.inputNodes

instance (P : SourcePartition) (g : Graph) : Decidable (P.InputsClosed g) :=
  inferInstanceAs (Decidable (∀ k ∈ P.nodes, ∀ m ∈ allInputNodes (g.node k).args,
    m ∉ P.nodes → m ∈ P.inputNodes))

section Walk

variable {P : SourcePartition} {g : Graph} {n first r : Node} {rest path : List Node}

theorem partitionWalk_of_stops (h : allInputNodes (g.node n).args = [] ∨ n ∈ P.inputNodes) :
    PartitionWalk P g n path r ↔ path = [] ∧ r = n := by
  constructor
  · intro hw
    cases hw with
    | stop => exact ⟨rfl, rfl⟩
    | step hf hi =>
      rcases h with h | h
      · exact absurd (h.symm.trans hf) List.noConfusion
      · exact absurd h hi
  · rintro ⟨rfl, rfl⟩
    exact .stop h

theorem partitionWalk_of_continues (hf : allInputNodes (g.node n).args = first :: rest)
    (hi : n ∉ P.inputNodes) :
    PartitionWalk P g n path r ↔ ∃ path', PartitionWalk P g first path' r ∧ n :: path' = path := by
  constructor
  · intro hw
    cases hw with
    | stop h => exact absurd h (by simp [hf, hi])
    | step hf' _ hw =>
      obtain ⟨rfl, -⟩ := List.cons.inj (hf.symm.trans hf')
      exact ⟨_, hw, rfl⟩
  · rintro ⟨path', hw, rfl⟩
    exact .step hf hi hw

/-- The fuel model returns exactly the ends of the runs whose passes fit in its fuel. -/
theorem findPartitionArgs_eq_some_iff {fuel : Nat} :
    findPartitionArgs P g fuel n = some r ↔
      ∃ path, PartitionWalk P g n path r ∧ path.length < fuel := by
  induction fuel generalizing n with
  | zero => simp [findPartitionArgs]
  | succ fuel ih =>
    rw [findPartitionArgs]
    split
    next hf => simp [partitionWalk_of_stops (.inl hf), and_assoc, eq_comm]
    next first rest hf =>
      split
      next hi => simp [partitionWalk_of_stops (.inr hi), and_assoc, eq_comm]
      next hi => simp [partitionWalk_of_continues hf hi, ih, exists_exists_and_eq_and]

theorem first_lt (hg : g.InputsBefore) (hf : allInputNodes (g.node n).args = first :: rest) :
    first < n :=
  hg first n (hf ▸ List.mem_cons_self first rest)

theorem partitionWalk_exists (hg : g.InputsBefore) (n : Node) :
    ∃ path r, PartitionWalk P g n path r := by
  induction n using Nat.strong_induction_on with
  | _ n ih =>
    by_cases hs : allInputNodes (g.node n).args = [] ∨ n ∈ P.inputNodes
    · exact ⟨[], n, .stop hs⟩
    · obtain ⟨hne, hi⟩ := not_or.mp hs
      obtain ⟨first, rest, hf⟩ := List.exists_cons_of_ne_nil hne
      obtain ⟨path, r, hw⟩ := ih first (first_lt hg hf)
      exact ⟨n :: path, r, .step hf hi hw⟩

theorem PartitionWalk.length_add_le (hg : g.InputsBefore) (hw : PartitionWalk P g n path r) :
    path.length + r ≤ n := by
  induction hw with
  | stop => simp
  | step hf _ _ ih =>
    have := Nat.succ_le_of_lt (first_lt hg hf)
    simp only [List.length_cons]
    omega

/-- Every fuel above the start node's position returns the end of its walk. -/
theorem PartitionWalk.findPartitionArgs_eq {fuel : Nat} (hg : g.InputsBefore)
    (hw : PartitionWalk P g n path r) (h : n < fuel) : findPartitionArgs P g fuel n = some r :=
  findPartitionArgs_eq_some_iff.mpr
    ⟨path, hw, ((Nat.le_add_right _ r).trans (hw.length_add_le hg)).trans_lt h⟩

/-- The boundary walk only goes back: it ends at its start or an earlier node. -/
theorem findPartitionArgs_le {P : SourcePartition} {g : Graph} (hg : g.InputsBefore) :
    ∀ fuel x y, findPartitionArgs P g fuel x = some y → y ≤ x := fun _ _ _ h => by
  obtain ⟨path, hw, -⟩ := findPartitionArgs_eq_some_iff.mp h
  exact (Nat.le_add_left _ _).trans (hw.length_add_le hg)

/-- One pass of the body from a node of the partition leaves one of its nodes and reaches a
node or an input node of it. -/
theorem mem_partition_of_step (hc : P.InputsClosed g) (hn : n ∈ P.nodes ∨ n ∈ P.inputNodes)
    (hf : allInputNodes (g.node n).args = first :: rest) (hi : n ∉ P.inputNodes) :
    n ∈ P.nodes ∧ (first ∈ P.nodes ∨ first ∈ P.inputNodes) := by
  have hN := hn.resolve_right hi
  exact ⟨hN, or_iff_not_imp_left.mpr (hc n hN first (hf ▸ List.mem_cons_self first rest))⟩

theorem PartitionWalk.in_partition (hc : P.InputsClosed g) (hw : PartitionWalk P g n path r)
    (hn : n ∈ P.nodes ∨ n ∈ P.inputNodes) :
    (r ∈ P.inputNodes ∨ r ∈ P.nodes ∧ allInputNodes (g.node r).args = []) ∧
      ∀ x ∈ path, x ∈ P.nodes := by
  induction hw with
  | @stop node hs =>
    refine ⟨?_, by simp⟩
    by_cases hi : node ∈ P.inputNodes
    · exact .inl hi
    · exact .inr ⟨hn.resolve_right hi, hs.resolve_right hi⟩
  | step hf hi _ ih =>
    obtain ⟨hN, hfirst⟩ := mem_partition_of_step hc hn hf hi
    obtain ⟨hr, hpath⟩ := ih hfirst
    exact ⟨hr, List.forall_mem_cons.mpr ⟨hN, hpath⟩⟩

end Walk

/-- In a graph whose inputs come first, the walk of `find_partition_args` ends from every
node, within as many passes as the node's position, so every fuel above that position
returns its end. From a node of the partition, when the partition's input nodes hold every
outside input of its nodes, the walk ends at an input node or at a partition node with no
inputs, and every node the body runs at is a node of the partition. -/
theorem findPartitionArgs_terminates_in_partition (P : SourcePartition) (g : Graph)
    (hg : g.InputsBefore) (n : Node) :
    (∃ path r, PartitionWalk P g n path r ∧
      ∀ fuel, n < fuel → findPartitionArgs P g fuel n = some r) ∧
    (n ∈ P.nodes ∨ n ∈ P.inputNodes → P.InputsClosed g → ∀ path r, PartitionWalk P g n path r →
      (r ∈ P.inputNodes ∨ r ∈ P.nodes ∧ allInputNodes (g.node r).args = []) ∧
        ∀ x ∈ path, x ∈ P.nodes) := by
  obtain ⟨path, r, hw⟩ := partitionWalk_exists (P := P) hg n
  exact ⟨⟨path, r, hw, fun _ => hw.findPartitionArgs_eq hg⟩, fun hn hc _ _ h => h.in_partition hc hn⟩

/-- In the FP32 linear, the walk from the `permute` node passes through it and stops at the
weight, an input node of the linear partition. -/
theorem findPartitionArgs_terminates_in_partition_fp32Linear :
    linearPartition.InputsClosed fp32LinearGraph ∧
    PartitionWalk linearPartition fp32LinearGraph 3 [3] 1 ∧
    (∃ path r, PartitionWalk linearPartition fp32LinearGraph 3 path r ∧
      ∀ fuel, 3 < fuel → findPartitionArgs linearPartition fp32LinearGraph fuel 3 = some r) ∧
    ((3 : Node) ∈ linearPartition.nodes ∨ (3 : Node) ∈ linearPartition.inputNodes →
      linearPartition.InputsClosed fp32LinearGraph → ∀ path r,
        PartitionWalk linearPartition fp32LinearGraph 3 path r →
        (r ∈ linearPartition.inputNodes ∨
          r ∈ linearPartition.nodes ∧ allInputNodes (fp32LinearGraph.node r).args = []) ∧
        ∀ x ∈ path, x ∈ linearPartition.nodes) :=
  ⟨by decide, .step rfl (by decide) (.stop (.inr (by decide))),
    findPartitionArgs_terminates_in_partition linearPartition fp32LinearGraph
      (Graph.ofList_inputsBefore (by decide)) 3⟩

/-- In a graph whose inputs come first, building `fake_args` from arguments that are nodes
of the graph fails only where an argument is a literal, on which `find_partition_args`
raises: the fuel `g.size` never stands in for a walk that does not end. -/
theorem fakeArgs_eq_none_iff (P : SourcePartition) (g : Graph) (hg : g.InputsBefore)
    (args : List Arg) (hs : ∀ m, Arg.node m ∈ args → m < g.size) :
    fakeArgs P g args = none ↔ ∃ a ∈ args, a.node? = none := by
  induction args with
  | nil =>
    rw [fakeArgs, List.mapM_nil]
    simp
  | cons a args ih =>
    have ih := ih fun m hm => hs m (List.mem_cons_of_mem a hm)
    rw [fakeArgs] at ih
    rw [fakeArgs, List.mapM_cons]
    generalize args.mapM (fun a => a.node? >>= findPartitionArgs P g g.size) = ys at ih ⊢
    cases a with
    | node m =>
      obtain ⟨path, r, hw⟩ := partitionWalk_exists (P := P) hg m
      cases ys <;> simp [hw.findPartitionArgs_eq hg (hs m (List.mem_cons_self _ _)), ← ih]
    | _ => simp [Arg.node?]

/-- The `permute` node's second argument is the literal `[1, 0]`, so building fake arguments
from its arguments raises. -/
theorem fakeArgs_eq_none_iff_permute :
    fakeArgs linearPartition fp32LinearGraph (fp32LinearGraph.node 3).args = none ∧
    (fakeArgs linearPartition fp32LinearGraph (fp32LinearGraph.node 3).args = none ↔
      ∃ a ∈ (fp32LinearGraph.node 3).args, a.node? = none) :=
  ⟨by decide, fakeArgs_eq_none_iff linearPartition fp32LinearGraph
    (Graph.ofList_inputsBefore (by decide)) _ fun m hm => by
      simp [fp32LinearGraph, Graph.ofList] at hm
      subst hm
      decide⟩

end XnnpackGemm
