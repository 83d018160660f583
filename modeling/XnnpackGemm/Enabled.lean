import XnnpackGemm.Schedule

/-!
# What `enabled_precision_types` decides

`get_deps` checks the detected precision against `supported_precision_types()`, which
holds every precision, and reads `enabled_precision_types` only in `_overwrite_precision`,
which acts only when the list is exactly `[FP32]`. Every other list gives the same
answers: instances that enable only static quantization still partition an FP32 gemm, and
the precision filter is left to the common constraints.
-/

namespace XnnpackGemm

/-- The instance with `enabled_precision_types` replaced. -/
def GEMMConfig.withEnabled (cfg : GEMMConfig) (e : List ConfigPrecisionType) : GEMMConfig :=
  { cfg with enabledPrecisionTypes := e }

theorem overwrite_of_ne_fp32 {e : List ConfigPrecisionType} (h : e ≠ [.fp32])
    (p : ConfigPrecisionType) : overwrite e p = (false, p) := by
  simp [overwrite, h]

section Enabled

variable (O : Oracles) (cfg : GEMMConfig) {e : List ConfigPrecisionType}
  (hc : cfg.enabledPrecisionTypes ≠ [.fp32]) (he : e ≠ [.fp32])
include hc he

theorem overwritePrecision_withEnabled (g : Graph) (n : Node) :
    overwritePrecision O (cfg.withEnabled e) g n = overwritePrecision O cfg g n := by
  have h : overwrite e = overwrite cfg.enabledPrecisionTypes :=
    funext fun p => by rw [overwrite_of_ne_fp32 he, overwrite_of_ne_fp32 hc]
  show (detectPrecision O cfg g n).map (overwrite e) = _
  rw [h]
  rfl

theorem resolveDeps_withEnabled (g : Graph) (n : Node) :
    resolveDeps O (cfg.withEnabled e) g n = resolveDeps O cfg g n := by
  unfold resolveDeps getWeightDeps linearWeightDeps
  rw [overwritePrecision_withEnabled O cfg hc he]
  rfl

theorem gemmGetDeps_withEnabled (n : Node) (s : State) :
    gemmGetDeps O (cfg.withEnabled e) n s = gemmGetDeps O cfg n s := by
  unfold gemmGetDeps
  rw [resolveDeps_withEnabled O cfg hc he]

theorem depsOf_withEnabled (n : Node) (g : Graph) :
    depsOf O (cfg.withEnabled e) n g = depsOf O cfg n g := by
  unfold depsOf srcPartitionDeps
  simp only [resolveDeps_withEnabled O cfg hc he]
  rfl

theorem checkOf_withEnabled (n : Node) (g : Graph) :
    checkOf O (cfg.withEnabled e) n g = checkOf O cfg n g := by
  unfold checkOf
  rw [depsOf_withEnabled O cfg hc he]
  rfl

theorem getDeps_state_withEnabled (n : Node) (s : State) :
    (getDeps O (cfg.withEnabled e) n s).state = (getDeps O cfg n s).state := by
  have h₁ := congrArg Prod.snd (getDeps_run O (cfg.withEnabled e) n s)
  have h₂ := congrArg Prod.snd (getDeps_run O cfg n s)
  simp only at h₁ h₂
  rw [h₁, h₂]
  simp only [getDepsFromSrcPartition, gemmGetDeps_withEnabled O cfg hc he]
  rfl

omit hc he in
theorem getDeps_config_withEnabled (n : Node) (s : State) :
    (getDeps O (cfg.withEnabled e) n s).config = (getDeps O cfg n s).config.withEnabled e := by
  rw [getDeps_config, getDeps_config]
  show (match cfg.kind with
    | .addmm | .mm => cacheSrcPartitions O (cfg.withEnabled e) s.graph
    | .linear | .convolution => cfg.withEnabled e) = _
  cases cfg.kind <;> rfl

/-- A call on the instance with another list answers alike and leaves the same state; the
instance it leaves differs in the list alone. -/
theorem Call.run_withEnabled (c : Call) (s : State) :
    c.run O (cfg.withEnabled e) s =
      ((c.run O cfg s).1, (c.run O cfg s).2.1, (c.run O cfg s).2.2.withEnabled e) := by
  have hr : (c.run O (cfg.withEnabled e) s).1 = (c.run O cfg s).1 := by
    rw [Call.run_reply, Call.run_reply]
    unfold Call.answer
    cases c.method <;>
      simp only [checkOf_withEnabled O cfg hc he, depsOf_withEnabled O cfg hc he]
  have hcc : (cfg.withEnabled e).checkCommonConstraints c.node =
      cfg.checkCommonConstraints c.node := rfl
  have hs : (c.run O (cfg.withEnabled e) s).2.1 = (c.run O cfg s).2.1 := by
    unfold Call.run
    cases c.method <;>
      simp only [checkConstraints_state, getNodeAndDeps, getDeps_state_withEnabled O cfg hc he, hcc]
  have hk : (c.run O (cfg.withEnabled e) s).2.2 = (c.run O cfg s).2.2.withEnabled e := by
    unfold Call.run
    cases c.method <;>
      simp only [checkConstraints_config, getNodeAndDeps, getDeps_config_withEnabled O cfg, hcc]
    cases cfg.checkCommonConstraints c.node <;> rfl
  exact Prod.ext hr (Prod.ext hs hk)

end Enabled

/-- The session with the list of every instance replaced. -/
def Session.withEnabled (S : Session) (e : List ConfigPrecisionType) : Session :=
  ⟨S.state, fun k => (S.instances k).withEnabled e⟩

section Runs

variable (O : Oracles) {e : List ConfigPrecisionType}

/-- A call keeps the list of every instance. -/
theorem Session.call_enabled (S : Session) (c : Call) (k : GemmKind) :
    ((S.call O c).2.instances k).enabledPrecisionTypes = (S.instances k).enabledPrecisionTypes := by
  rcases Session.call_instances O S c k with h | h <;> rw [h]
  rfl

theorem Session.call_withEnabled (he : e ≠ [.fp32]) {S : Session}
    (hS : ∀ k, (S.instances k).enabledPrecisionTypes ≠ [.fp32]) (c : Call) :
    (S.withEnabled e).call O c = ((S.call O c).1, (S.call O c).2.withEnabled e) := by
  simp only [Session.call, Session.withEnabled, Call.run_withEnabled O _ (hS c.kind) he]
  congr
  funext k
  by_cases hk : k = c.kind
  · subst hk
    simp
  · simp [Function.update_noteq hk]

/-- The run lemma: the two sessions step alike, call after call. -/
theorem Session.run_withEnabled (he : e ≠ [.fp32]) (cs : List Call) :
    ∀ S : Session, (∀ k, (S.instances k).enabledPrecisionTypes ≠ [.fp32]) →
      (S.withEnabled e).run O cs = ((S.run O cs).1, (S.run O cs).2.withEnabled e) := by
  induction cs with
  | nil => exact fun _ _ => rfl
  | cons c cs ih =>
    intro S hS
    have hS₁ : ∀ k, ((S.call O c).2.instances k).enabledPrecisionTypes ≠ [.fp32] :=
      fun k => by rw [Session.call_enabled]; exact hS k
    simp only [Session.run, Session.call_withEnabled O he hS c, ih _ hS₁]

end Runs

/-- Partitioners whose `enabled_precision_types` differ, neither list being `[FP32]`, give
the same reply to every call of every sequence, raising calls included, and leave the same
graph and tags. -/
theorem run_enabledPrecisionTypes_irrelevant (O : Oracles) (pc : XNNPartitionerConfig)
    (g : Graph) {e : List ConfigPrecisionType} (hpc : pc.enabledPrecisionTypes ≠ [.fp32])
    (he : e ≠ [.fp32]) (cs : List Call) :
    ((Session.fresh { pc with enabledPrecisionTypes := e } g).run O cs).1 =
        ((Session.fresh pc g).run O cs).1 ∧
      ((Session.fresh { pc with enabledPrecisionTypes := e } g).run O cs).2.state =
        ((Session.fresh pc g).run O cs).2.state := by
  have hf : Session.fresh { pc with enabledPrecisionTypes := e } g =
      (Session.fresh pc g).withEnabled e := by
    simp only [Session.fresh, Session.withEnabled, Session.mk.injEq, true_and]
    funext k
    cases k <;> rfl
  have hS : ∀ k, ((Session.fresh pc g).instances k).enabledPrecisionTypes ≠ [.fp32] :=
    fun k => by cases k <;> exact hpc
  rw [hf, Session.run_withEnabled O he cs _ hS]
  exact ⟨rfl, rfl⟩

/-- Instances that enable only static quantization partition the FP32 linear as those that
enable every precision do. -/
theorem run_enabledPrecisionTypes_irrelevant_fp32Linear :
    ((Session.fresh ⟨[.staticQuant], false, fun _ => true⟩ fp32LinearGraph).run
        fp32LinearOracles [⟨.addmm, .getDeps, 4⟩]).1 = [.deps (some (true, [2, 1, 3, 4]))] ∧
    ((Session.fresh ⟨[.fp32, .staticQuant, .dynamicQuant], false, fun _ => true⟩
        fp32LinearGraph).run fp32LinearOracles [⟨.addmm, .getDeps, 4⟩]).1 =
      ((Session.fresh ⟨[.staticQuant], false, fun _ => true⟩ fp32LinearGraph).run
        fp32LinearOracles [⟨.addmm, .getDeps, 4⟩]).1 ∧
    ((Session.fresh ⟨[.fp32, .staticQuant, .dynamicQuant], false, fun _ => true⟩
        fp32LinearGraph).run fp32LinearOracles [⟨.addmm, .getDeps, 4⟩]).2.state =
      ((Session.fresh ⟨[.staticQuant], false, fun _ => true⟩ fp32LinearGraph).run
        fp32LinearOracles [⟨.addmm, .getDeps, 4⟩]).2.state :=
  ⟨by decide, run_enabledPrecisionTypes_irrelevant fp32LinearOracles
    ⟨[.staticQuant], false, fun _ => true⟩ fp32LinearGraph (by decide) (by decide) _⟩

end XnnpackGemm
