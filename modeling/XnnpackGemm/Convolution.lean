import XnnpackGemm.Weight

/-!
# What ConvolutionConfig accepts

`ConvolutionConfig.check_constraints` runs the generic check (the common constraints, then
`get_deps`) and then restrictions of its own, each with the reason it logs: at most two
spatial dimensions, a standard 2D convolution under dynamic quantization, no output
padding for a transposed convolution, and for a transposed convolution with per-channel
weights no groups and quantization along axis 1. `ConvolutionSupported` states them over
the node's arguments; whenever the check answers, it answers whether the node passes the
generic check and is supported.
-/

namespace XnnpackGemm

/-- The restrictions `ConvolutionConfig.check_constraints` puts on
`convolution(input, weight, bias, stride, padding, dilation, transposed, output_padding,
groups)`, one field for each reason it gives, over the arguments as the node holds them. -/
structure ConvolutionSupported (O : Oracles) (cfg : GEMMConfig) (g : Graph) (n : Node) : Prop where
  /-- "Only support 1D + 2D Conv". -/
  oneOrTwoD : ∀ stride, getInputNode g n 3 = some (.ints stride) → stride.length ≤ 2
  /-- "XNNPACK only supports standard 2D convolutions for dynamic quantization". -/
  dynamic2D : detectPrecision O cfg g n = some .dynamicQuant →
    ∀ stride, getInputNode g n 3 = some (.ints stride) → stride.length = 2
  /-- The same reason, for a depthwise convolution. -/
  dynamicNotDepthwise : detectPrecision O cfg g n = some .dynamicQuant →
    ∀ kernel groups transposed, inputNode g n 1 = some kernel →
      getInputNode g n 8 = some (.int groups) → getInputNode g n 6 = some transposed →
      O.isDepthwiseConv (O.getShape kernel) groups transposed.truthy = false
  /-- "XNNPACK does not support transposed convolutions with non-zero output padding". -/
  transposedOutputPadding : ∀ transposed pads, getInputNode g n 6 = some transposed →
    transposed.truthy = true → getInputNode g n 7 = some (.ints pads) → ∀ p ∈ pads, p = 0
  /-- "XNNPACK does not support per input channel quantization for transpose convolutions
  with groups > 1". -/
  transposedPerChannel : ∀ transposed kernel wqp groups, getInputNode g n 6 = some transposed →
    transposed.truthy = true → inputNode g n 1 = some kernel →
    O.fromWeights kernel = some wqp → wqp.perChannel = true →
    getInputNode g n 8 = some (.int groups) → groups ≤ 1 ∧ wqp.axis = 1

section Constraints

variable (O : Oracles) (cfg : GEMMConfig) (n : Node) (g : Graph)

/-- Once the check has read the stride, kernel, groups, transposed flag and precision,
being supported is a condition on those values. -/
theorem convolutionSupported_iff {s : List Int} {k : Node} {gr t : Arg} {pr : ConfigPrecisionType}
    (h3 : getInputNode g n 3 = some (.ints s)) (hs2 : s.length ≤ 2)
    (hk : inputNode g n 1 = some k) (hgr : getInputNode g n 8 = some gr)
    (ht : getInputNode g n 6 = some t) (hpr : detectPrecision O cfg g n = some pr) :
    ConvolutionSupported O cfg g n ↔
      (pr = .dynamicQuant → s.length = 2 ∧
        ∀ gi, gr = .int gi → O.isDepthwiseConv (O.getShape k) gi t.truthy = false) ∧
      (t.truthy = true → (∀ pads, getInputNode g n 7 = some (.ints pads) → ∀ p ∈ pads, p = 0) ∧
        ∀ wqp gi, O.fromWeights k = some wqp → wqp.perChannel = true → gr = .int gi →
          gi ≤ 1 ∧ wqp.axis = 1) := by
  constructor
  · rintro ⟨-, h2, h3', h4, h5⟩
    exact ⟨fun hd =>
        ⟨h2 (hd ▸ hpr) s h3, fun gi hgi => h3' (hd ▸ hpr) k gi t hk (hgi ▸ hgr) ht⟩,
      fun htr => ⟨fun pads => h4 t pads ht htr,
        fun wqp gi hw hpc hgi => h5 t k wqp gi ht htr hk hw hpc (hgi ▸ hgr)⟩⟩
  · rintro ⟨h1, h2⟩
    refine ⟨fun st hst => ?_, fun hd st hst => ?_, fun hd k' gi t' hk' hgi ht' => ?_,
      fun t' pads ht' htr h7 => ?_, fun t' k' wqp gi ht' htr hk' hw hpc hgi => ?_⟩
    · cases hst.symm.trans h3; exact hs2
    · cases hst.symm.trans h3; cases hpr.symm.trans hd; exact (h1 rfl).1
    · cases hpr.symm.trans hd
      cases hk'.symm.trans hk; cases hgi.symm.trans hgr; cases ht'.symm.trans ht
      exact (h1 rfl).2 gi rfl
    · cases ht'.symm.trans ht; exact (h2 htr).1 pads h7
    · cases ht'.symm.trans ht; cases hk'.symm.trans hk; cases hgi.symm.trans hgr
      exact (h2 htr).2 wqp gi hw hpc rfl

/-- Whenever ConvolutionConfig's own checks answer, they answer whether the convolution is
supported. -/
theorem convolutionConstraints_decides {r : Bool} (h : convolutionConstraints O cfg n g = some r) :
    r = true ↔ ConvolutionSupported O cfg g n := by
  unfold convolutionConstraints at h
  dsimp only [Option.bind_eq_bind, Option.pure_def, Option.some_bind] at h
  rw [Option.bind_eq_some] at h
  obtain ⟨_, h3, h⟩ := h
  rw [Option.bind_eq_some] at h
  obtain ⟨s, hs, h⟩ := h
  obtain rfl := Arg.ints?_eq_some.1 hs
  by_cases hs2 : s.length > 2
  · rw [if_pos hs2] at h
    obtain rfl := (Option.some.inj h).symm
    exact ⟨nofun, fun hS => absurd (hS.oneOrTwoD s h3) (by omega)⟩
  rw [if_neg hs2, Option.bind_eq_some] at h
  obtain ⟨k, hk, h⟩ := h
  rw [Option.bind_eq_some] at h
  obtain ⟨gr, hgr, h⟩ := h
  rw [Option.bind_eq_some] at h
  obtain ⟨t, ht, h⟩ := h
  rw [Option.bind_eq_some] at h
  obtain ⟨pr, hpr, h⟩ := h
  rw [convolutionSupported_iff O cfg n g h3 (by omega) hk hgr ht hpr]
  by_cases hd : pr = .dynamicQuant
  on_goal 2 =>
    rw [if_neg hd] at h
    rw [and_iff_right fun hd' => absurd hd' hd]
  rw [if_pos hd] at h
  by_cases h2 : s.length = 2
  on_goal 2 =>
    rw [if_pos (by simpa using h2)] at h
    obtain rfl := (Option.some.inj h).symm
    simp [hd, h2]
  rw [if_neg (by simp [h2]), Option.bind_eq_some] at h
  obtain ⟨gi, hgi, h⟩ := h
  have hgr' : gr = .int gi := Arg.int?_eq_some.1 hgi
  by_cases hdw : O.isDepthwiseConv (O.getShape k) gi t.truthy = true
  on_goal 1 =>
    rw [if_pos hdw] at h
    obtain rfl := (Option.some.inj h).symm
    simp [hd, hdw, hgr']
  rw [if_neg hdw] at h
  rw [and_iff_right fun _ =>
    ⟨h2, fun gi' hgi' => by cases hgr'.symm.trans hgi'; simpa using hdw⟩]
  all_goals
    by_cases htr : t.truthy = true
    on_goal 2 =>
      rw [if_neg htr, if_neg htr] at h
      obtain rfl := (Option.some.inj h).symm
      simp [htr]
    rw [if_pos htr, Option.bind_eq_some] at h
    obtain ⟨a7, h7, h⟩ := h
    rw [Option.bind_eq_some] at h
    obtain ⟨pads, hpads, h⟩ := h
    obtain rfl := Arg.ints?_eq_some.1 hpads
    simp only [htr, true_implies]
    by_cases hany : (pads.any fun x => x != 0) = true
    on_goal 1 =>
      rw [if_pos hany] at h
      obtain rfl := (Option.some.inj h).symm
      simp only [List.any_eq_true, bne_iff_ne] at hany
      obtain ⟨p, hp, hp0⟩ := hany
      simp only [Bool.false_eq_true, false_iff, not_and]
      exact fun hall => absurd (hall pads h7 p hp) hp0
    rw [if_neg hany, if_pos htr] at h
    rw [and_iff_right fun pads' h7' => by
      cases h7.symm.trans h7'
      simpa using hany]
    cases hw : O.fromWeights k with
    | none =>
      rw [hw] at h
      obtain rfl := (Option.some.inj h).symm
      simp
    | some wqp =>
      rw [hw] at h
      dsimp only at h
      by_cases hpc : wqp.perChannel = true
      on_goal 2 =>
        rw [if_neg hpc] at h
        obtain rfl := (Option.some.inj h).symm
        simp only [Option.some.injEq, true_iff]
        rintro _ _ rfl hpc'
        exact absurd hpc' hpc
      rw [if_pos hpc, Option.bind_eq_some] at h
      obtain ⟨gi, hgi, h⟩ := h
      obtain rfl := Arg.int?_eq_some.1 hgi
      by_cases hc : (decide (1 < gi) || wqp.axis != 1) = true
      · rw [if_pos hc] at h
        obtain rfl := (Option.some.inj h).symm
        simp only [Bool.or_eq_true, decide_eq_true_eq, bne_iff_ne] at hc
        simp only [Bool.false_eq_true, false_iff, not_forall]
        exact ⟨wqp, gi, rfl, hpc, rfl, by omega⟩
      · rw [if_neg hc] at h
        obtain rfl := (Option.some.inj h).symm
        simp only [Bool.or_eq_true, decide_eq_true_eq, bne_iff_ne, not_or, not_lt, not_not] at hc
        simp only [Option.some.injEq, Arg.int.injEq, true_iff]
        rintro _ _ rfl - rfl
        exact hc

end Constraints

/-- Whenever `ConvolutionConfig.check_constraints` answers, it answers whether the node
passes the common constraints, `get_deps` answers valid, and the convolution is
supported. -/
theorem checkConstraints_convolution_iff_supported (O : Oracles) (cfg : GEMMConfig) (n : Node)
    (s : State) (hk : cfg.kind = .convolution) {r : Bool}
    (h : (checkConstraints O cfg n s).value = some r) :
    r = true ↔ cfg.checkCommonConstraints n = true ∧
      (getDeps O cfg n s).value.map Prod.fst = some true ∧ ConvolutionSupported O cfg s.graph n := by
  rw [checkConstraints_value] at h
  rw [getDeps_value]
  unfold checkOf at h
  cases hc : cfg.checkCommonConstraints n
  · simp only [hc, Bool.not_false, ↓reduceIte, Option.some.injEq] at h
    subst h
    simp
  simp only [hc, Bool.not_true, Bool.false_eq_true, ↓reduceIte, hk, true_and] at h ⊢
  rcases hd : (depsOf O cfg n s.graph).map Prod.fst with _ | _ | _ <;> rw [hd] at h
  · cases h
  · obtain rfl := (Option.some.inj h).symm
    simp
  · simpa using convolutionConstraints_decides O cfg n s.graph h

/-- The statically quantized convolution passes ConvolutionConfig's check. -/
theorem checkConstraints_convolution_iff_supported_quantizedGemms :
    (convolutionConfig ⟨[.fp32, .staticQuant, .dynamicQuant], false, fun _ => true⟩).checkCommonConstraints 7 = true ∧
      (getDeps quantizedGemmsOracles
        (convolutionConfig ⟨[.fp32, .staticQuant, .dynamicQuant], false, fun _ => true⟩) 7
        ⟨quantizedGemmsGraph, ∅⟩).value.map Prod.fst = some true ∧
      ConvolutionSupported quantizedGemmsOracles
        (convolutionConfig ⟨[.fp32, .staticQuant, .dynamicQuant], false, fun _ => true⟩)
        quantizedGemmsGraph 7 :=
  (checkConstraints_convolution_iff_supported quantizedGemmsOracles
    (convolutionConfig ⟨[.fp32, .staticQuant, .dynamicQuant], false, fun _ => true⟩) 7
    ⟨quantizedGemmsGraph, ∅⟩ rfl (r := true) (by decide)).1 rfl

end XnnpackGemm
