import XnnpackGemm.Simulation

/-!
# The order of the partitioner's calls

A partitioner visits the nodes of a program in an order of its own and may ask about a
node more than once. The calls share the graph, the implicit-q/dq tags and the instances'
caches, yet while every call returns, the session they leave depends only on which calls
were made: the graph is the program, the tags are the union of the tags each call sets on
its own, and the AddmmConfig and MMConfig instances hold the cache exactly when one of
their calls ran `get_deps`. Over every run, raising calls included, tags are only added,
and only to quantize and dequantize nodes.
-/

namespace XnnpackGemm

section Effects

variable (O : Oracles) (cfg : GEMMConfig) (n : Node) (g : Graph)

theorem tagImplicitQDQ_eq_union (D : List Node) (t : Finset Node) :
    tagImplicitQDQ O D t = t ∪ tagImplicitQDQ O D ∅ := by
  simp [tagImplicitQDQ]

theorem gemmGetDeps_tagged_union (t : Finset Node) :
    (gemmGetDeps O cfg n ⟨g, t⟩).2.tagged = t ∪ (gemmGetDeps O cfg n ⟨g, ∅⟩).2.tagged := by
  rw [gemmGetDeps_tagged, gemmGetDeps_tagged, tagImplicitQDQ_eq_union]

theorem getDepsFromSrcPartition_tagged_union (P : SourcePartition) (t : Finset Node) :
    (getDepsFromSrcPartition O cfg n P ⟨g, t⟩).2.tagged =
      t ∪ (getDepsFromSrcPartition O cfg n P ⟨g, ∅⟩).2.tagged := by
  simp only [getDepsFromSrcPartition]
  cases fakeArgs P g (g.node n).args with
  | none => simp
  | some fake =>
    dsimp only
    rcases checkSrcPartition cfg P fake with _ | _ | out
    · simp
    · simp
    · dsimp only
      have h := gemmGetDeps_tagged_union O cfg n (fakedGraph n g fake out) t
      revert h
      rcases gemmGetDeps O cfg n ⟨fakedGraph n g fake out, t⟩ with ⟨_ | _, s₁⟩ <;>
        rcases gemmGetDeps O cfg n ⟨fakedGraph n g fake out, ∅⟩ with ⟨_ | _, s₂⟩ <;>
        exact id

theorem getDeps_tagged_union (t : Finset Node) :
    (getDeps O cfg n ⟨g, t⟩).state.tagged = t ∪ (getDeps O cfg n ⟨g, ∅⟩).state.tagged := by
  have h₁ := congrArg Prod.snd (getDeps_run O cfg n ⟨g, t⟩)
  have h₂ := congrArg Prod.snd (getDeps_run O cfg n ⟨g, ∅⟩)
  simp only at h₁ h₂
  rw [h₁, h₂]
  cases srcPartitionFor O cfg n g with
  | some P => exact getDepsFromSrcPartition_tagged_union O cfg n g P t
  | none => exact gemmGetDeps_tagged_union O cfg n g t

/-- An instance with its cache filled from the graph leaves the same state as without. -/
theorem getDeps_state_cacheSrcPartitions (s : State) :
    (getDeps O (cacheSrcPartitions O cfg s.graph) n s).state = (getDeps O cfg n s).state := by
  have h₁ := congrArg Prod.snd (getDeps_run O (cacheSrcPartitions O cfg s.graph) n s)
  have h₂ := congrArg Prod.snd (getDeps_run O cfg n s)
  simp only at h₁ h₂
  rw [h₁, h₂, cacheSrcPartitions, srcPartitionFor_withSrcPartitions O cfg n s.graph
    (some (srcPartitionsOf O cfg s.graph)) rfl]
  cases srcPartitionFor O cfg n s.graph <;> rfl

end Effects

/-- Whether a call runs `get_deps` on an instance that caches: AddmmConfig and MMConfig
fill their cache in `get_deps`, which `check_constraints` reaches only past the common
constraints. -/
def Call.fills (c : Call) (cfg : GEMMConfig) : Bool :=
  (cfg.kind == .addmm || cfg.kind == .mm) &&
    (c.method != .checkConstraints || cfg.checkCommonConstraints c.node)

section CallEffects

variable (O : Oracles) (cfg : GEMMConfig) (c : Call)

@[simp] theorem Call.fills_cacheSrcPartitions (g : Graph) :
    c.fills (cacheSrcPartitions O cfg g) = c.fills cfg := rfl

theorem Call.run_tagged_union (g : Graph) (t : Finset Node) :
    (c.run O cfg ⟨g, t⟩).2.1.tagged = t ∪ (c.run O cfg ⟨g, ∅⟩).2.1.tagged := by
  unfold Call.run
  cases c.method
  case checkConstraints =>
    simp only [checkConstraints_state]
    split
    · exact getDeps_tagged_union O cfg c.node g t
    · simp
  all_goals exact getDeps_tagged_union O cfg c.node g t

theorem Call.run_state_cacheSrcPartitions (s : State) :
    (c.run O (cacheSrcPartitions O cfg s.graph) s).2.1 = (c.run O cfg s).2.1 := by
  unfold Call.run
  cases c.method <;>
    simp only [checkConstraints_state, getNodeAndDeps, getDeps_state_cacheSrcPartitions]
  rfl

/-- The instance a call leaves: filled from the graph when the call ran `get_deps` on an
AddmmConfig or MMConfig, the same otherwise. -/
theorem Call.run_config_eq (s : State) :
    (c.run O cfg s).2.2 = if c.fills cfg then cacheSrcPartitions O cfg s.graph else cfg := by
  unfold Call.run Call.fills
  cases c.method <;> simp only [checkConstraints_config, getNodeAndDeps, getDeps_config]
  all_goals cases cfg.kind <;> cases cfg.checkCommonConstraints c.node <;> rfl

end CallEffects

theorem TagsGrowByQdq.trans {O : Oracles} {t t' t'' : Finset Node} (h₁ : TagsGrowByQdq O t t')
    (h₂ : TagsGrowByQdq O t' t'') : TagsGrowByQdq O t t'' :=
  ⟨h₁.1.trans h₂.1, fun m hm => (h₂.2 m hm).elim (h₁.2 m) .inr⟩

theorem Call.run_tagsGrow (O : Oracles) (cfg : GEMMConfig) (c : Call) (s : State) :
    TagsGrowByQdq O s.tagged (c.run O cfg s).2.1.tagged := by
  unfold Call.run
  cases c.method
  case checkConstraints => exact checkConstraints_tagsGrow O cfg c.node s
  all_goals exact getDeps_tagsGrow O cfg c.node s

/-- Over every run of calls on the partitioner's instances, from whatever session it starts
and whether or not its calls raise, tags are only added, and only to quantize and
dequantize nodes. -/
theorem run_tagsGrowByQdq (O : Oracles) (S : Session) (cs : List Call) :
    TagsGrowByQdq O S.state.tagged (S.run O cs).2.state.tagged := by
  induction cs generalizing S with
  | nil => exact .refl O _
  | cons c cs ih =>
    exact (Call.run_tagsGrow O (S.instances c.kind) c S.state).trans (ih (S.call O c).2)

theorem Call.run_node (O : Oracles) (cfg : GEMMConfig) (c : Call) (s : State) (m : Node) :
    ((c.run O cfg s).2.1.graph.node m).op = (s.graph.node m).op ∧
    ((c.run O cfg s).2.1.graph.node m).target = (s.graph.node m).target ∧
    (((c.run O cfg s).2.1.graph.node m).args = (s.graph.node m).args ∨
      m = c.node ∧ (cfg.kind = .addmm ∨ cfg.kind = .mm) ∧ (c.run O cfg s).1.raised = true) := by
  obtain ⟨ho, ht, ha⟩ := getDeps_node O cfg c.node s m
  have hv := getDeps_value O cfg c.node s
  unfold Call.run
  cases c.method
  case checkConstraints =>
    simp only [checkConstraints_state, Reply.raised, checkConstraints_value, checkOf]
    cases hc : cfg.checkCommonConstraints c.node
    · exact ⟨rfl, rfl, .inl rfl⟩
    · refine ⟨ho, ht, ha.imp_right fun ⟨hm, hk, hn⟩ => ⟨hm, hk, ?_⟩⟩
      rw [← hv, hn]
      cases cfg.kind <;> rfl
  all_goals exact ⟨ho, ht, ha.imp_right fun ⟨hm, hk, hn⟩ =>
    ⟨hm, hk, by simp [Reply.raised, getNodeAndDeps, hn]⟩⟩

/-- A call leaves every instance as it was, or with its cache filled from the graph. -/
theorem Session.call_instances (O : Oracles) (S : Session) (c : Call) (k : GemmKind) :
    (S.call O c).2.instances k = S.instances k ∨
      (S.call O c).2.instances k = cacheSrcPartitions O (S.instances k) S.state.graph := by
  simp only [Session.call]
  by_cases hk : k = c.kind
  · subst hk
    rw [Function.update_same]
    exact Call.run_config O (S.instances c.kind) S.state c
  · rw [Function.update_noteq hk]
    exact .inl rfl

/-- The run lemma of the frame, over any session whose instances are of their own class. -/
theorem Session.run_node (O : Oracles) (cs : List Call) (m : Node) :
    ∀ S : Session, (∀ k, (S.instances k).kind = k) →
      ((S.run O cs).2.state.graph.node m).op = (S.state.graph.node m).op ∧
      ((S.run O cs).2.state.graph.node m).target = (S.state.graph.node m).target ∧
      (((S.run O cs).2.state.graph.node m).args = (S.state.graph.node m).args ∨
        ∃ p ∈ cs.zip (S.run O cs).1, p.1.node = m ∧ (p.1.kind = .addmm ∨ p.1.kind = .mm) ∧
          p.2.raised = true) := by
  induction cs with
  | nil => exact fun _ _ => ⟨rfl, rfl, .inl rfl⟩
  | cons c cs ih =>
    intro S hk
    have hk₁ : ∀ k, ((S.call O c).2.instances k).kind = k := fun k => by
      rcases Session.call_instances O S c k with h | h <;> rw [h] <;> exact hk k
    obtain ⟨ho, ht, ha⟩ := ih _ hk₁
    obtain ⟨ho₁, ht₁, ha₁⟩ := Call.run_node O (S.instances c.kind) c S.state m
    simp only [Session.run, List.zip_cons_cons, List.mem_cons, exists_eq_or_imp]
    refine ⟨ho.trans ho₁, ht.trans ht₁, ?_⟩
    rcases ha with ha | ha
    · rcases ha₁ with ha₁ | ⟨hm, hkd, hr⟩
      · exact .inl (ha.trans ha₁)
      · exact .inr (.inl ⟨hm.symm, hk c.kind ▸ hkd, hr⟩)
    · exact .inr (.inr ha)

/-- Over every run of calls of a partitioner, raising calls included, every node keeps
its opcode and target, and a node's arguments differ at the end only if a call of the
AddmmConfig or MMConfig instance on that node raised. -/
theorem run_args_changed_only_by_raise (O : Oracles) (pc : XNNPartitionerConfig) (g : Graph)
    (cs : List Call) (m : Node) :
    (((Session.fresh pc g).run O cs).2.state.graph.node m).op = (g.node m).op ∧
    (((Session.fresh pc g).run O cs).2.state.graph.node m).target = (g.node m).target ∧
    ((((Session.fresh pc g).run O cs).2.state.graph.node m).args = (g.node m).args ∨
      ∃ p ∈ cs.zip ((Session.fresh pc g).run O cs).1, p.1.node = m ∧
        (p.1.kind = .addmm ∨ p.1.kind = .mm) ∧ p.2.raised = true) :=
  Session.run_node O cs m _ fun k => by cases k <;> rfl

/-- The tags a call sets on fresh instances over the program, with no tag set before. -/
def Call.tags (O : Oracles) (pc : XNNPartitionerConfig) (g : Graph) (c : Call) : Finset Node :=
  ((Session.fresh pc g).call O c).2.state.tagged

section Runs

variable (O : Oracles) (pc : XNNPartitionerConfig) (g : FxGraph)

/-- One call that returns on a clean session: the graph stays the program, the call adds
its own tags, and its instance is filled when the call ran `get_deps` on a cache. -/
theorem Session.call_eq {S : Session} (hS : S.Clean O pc g.graph) {c : Call}
    (hr : (freshReply O pc g.graph c).raised = false) :
    (S.call O c).2 = ⟨⟨g.graph, S.state.tagged ∪ c.tags O pc g.graph⟩,
      Function.update S.instances c.kind (if c.fills (S.instances c.kind)
        then cacheSrcPartitions O (S.instances c.kind) g.graph else S.instances c.kind)⟩ := by
  obtain ⟨hreply, hclean⟩ := Session.call_of_clean O pc g hS c
  have hg := (hclean (hreply ▸ hr)).1
  obtain ⟨hSg, hi⟩ := hS
  have hS' : S.state = ⟨g.graph, S.state.tagged⟩ := by rw [← hSg]
  have hrun : (c.run O (S.instances c.kind) S.state).2.1 =
      (c.run O (configOf pc c.kind) ⟨g.graph, S.state.tagged⟩).2.1 := by
    rcases hi c.kind with h | h <;> rw [h, hS']
    exact Call.run_state_cacheSrcPartitions O _ c ⟨g.graph, _⟩
  have ht : (S.call O c).2.state.tagged = S.state.tagged ∪ c.tags O pc g.graph := by
    simp only [Session.call, hrun]
    exact Call.run_tagged_union O _ c g.graph _
  simp only [Session.call, Call.run_config_eq, hSg] at hg ht ⊢
  congr 1
  rw [← ht, ← hg]

/-- The run lemma: from a clean session, a run of calls that return leaves the program's
graph, the tags it started with and those each call sets on its own, and each instance
filled exactly when one of the calls ran `get_deps` on it. -/
theorem Session.run_eq (cs : List Call)
    (h : ∀ c ∈ cs, (freshReply O pc g.graph c).raised = false) :
    ∀ S : Session, S.Clean O pc g.graph → (S.run O cs).2 =
      ⟨⟨g.graph, S.state.tagged ∪ cs.toFinset.biUnion (Call.tags O pc g.graph)⟩,
        fun k => if cs.any fun c => c.kind == k && c.fills (S.instances k)
          then cacheSrcPartitions O (S.instances k) g.graph else S.instances k⟩ := by
  induction cs with
  | nil =>
    intro S hS
    simp only [Session.run, List.toFinset_nil, Finset.biUnion_empty, Finset.union_empty,
      List.any_nil, Bool.false_eq_true, if_false, ← hS.1]
  | cons c cs ih =>
    intro S hS
    have hc := h c (List.mem_cons_self c cs)
    obtain ⟨hreply, hclean⟩ := Session.call_of_clean O pc g hS c
    rw [Session.run, ih (fun c' hc' => h c' (List.mem_cons_of_mem c hc')) _
      (hclean (hreply ▸ hc)), Session.call_eq O pc g hS hc]
    congr 1
    · simp only [List.toFinset_cons, Finset.biUnion_insert, Finset.union_assoc]
    · funext k
      by_cases hk : k = c.kind
      · subst hk
        cases hf : c.fills (S.instances c.kind) <;>
          simp [hf, List.any_cons, cacheSrcPartitions_cacheSrcPartitions]
      · simp [Function.update_noteq hk, List.any_cons, Ne.symm hk]

end Runs

/-- While every call returns, the session a partitioner leaves over a program depends only
on which calls it made: neither their order nor a repeated call changes the graph, the tags
or the instances' caches. -/
theorem run_session_eq_of_mem_iff (O : Oracles) (pc : XNNPartitionerConfig) (g : FxGraph)
    {cs₁ cs₂ : List Call} (h : ∀ c ∈ cs₁, (freshReply O pc g.graph c).raised = false)
    (hmem : ∀ c, c ∈ cs₁ ↔ c ∈ cs₂) :
    ((Session.fresh pc g.graph).run O cs₁).2 = ((Session.fresh pc g.graph).run O cs₂).2 := by
  have hS : (Session.fresh pc g.graph).Clean O pc g.graph := Session.fresh_clean O pc g ∅
  rw [Session.run_eq O pc g cs₁ h _ hS,
    Session.run_eq O pc g cs₂ (fun c hc => h c ((hmem c).mpr hc)) _ hS]
  have ht : cs₁.toFinset = cs₂.toFinset := Finset.ext fun c => by simp [hmem]
  have ha : ∀ p : Call → Bool, cs₁.any p = cs₂.any p := fun p => by
    rw [Bool.eq_iff_iff, List.any_eq_true, List.any_eq_true]
    exact exists_congr fun c => and_congr_left' (hmem c)
  simp only [ht, ha]

/-- Asking AddmmConfig for the deps of the addmm node, LinearConfig's `check_constraints` on
it, and AddmmConfig again, leaves the session that the last two calls leave. -/
theorem run_session_eq_of_mem_iff_fp32Linear :
    ((Session.fresh ⟨[.fp32], false, fun _ => true⟩ fp32LinearFx.graph).run fp32LinearOracles
        [⟨.addmm, .getDeps, 4⟩, ⟨.linear, .checkConstraints, 4⟩, ⟨.addmm, .getDeps, 4⟩]).2 =
      ((Session.fresh ⟨[.fp32], false, fun _ => true⟩ fp32LinearFx.graph).run fp32LinearOracles
        [⟨.linear, .checkConstraints, 4⟩, ⟨.addmm, .getDeps, 4⟩]).2 :=
  run_session_eq_of_mem_iff fp32LinearOracles ⟨[.fp32], false, fun _ => true⟩ fp32LinearFx
    (by decide) fun c => by
      simp only [List.mem_cons, List.not_mem_nil, or_false]
      tauto

end XnnpackGemm
