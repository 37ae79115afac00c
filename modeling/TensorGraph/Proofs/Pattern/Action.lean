import TensorGraph.Proofs.Pattern.BuiltIn

/-!
What the built-in patterns do to a graph, said once for all of them. Where such a pattern applies it puts ops in the
place of an op that weigh less together than the op did, or makes the results of an op constants, or removes an op
after rewiring the consumers of its result. Where it does not, it has only looked at what surrounds the op.
-/
namespace TensorGraph

open TensorGraph.Graph

/-- How much patterns can still do about an op of a kind: more than about all the ops together that a pattern puts in
its place. -/
def OpKind.weight : OpKind → Nat
  | .unaryGrad .sqrt | .unaryGrad .reciprocal => 4
  | .unaryGrad .exp => 2
  | .operandGrad .divRight _ => 7
  | .operandGrad _ _ => 4
  | kind => if Pattern.mayPassOn kind then 2 else 1

theorem OpKind.weight_pos (kind : OpKind) : 0 < kind.weight := by
  unfold weight
  split <;> first | decide | (split <;> decide)

theorem OpKind.weight_le (kind : OpKind) : kind.weight ≤ 7 := by
  unfold weight
  split <;> first | decide | (split <;> decide)

variable {r r₁ r' : Editor} {op : Op} {kind : OpKind} {inputs : List TensorId} {t output : TensorId} {k : BuiltIn}
  {p : Pattern} {backend : Option Backend}

namespace Editor

/-- Ops of the given kinds are inserted in the place of `template`, one after the other. Before each of them the number
of the next fresh name may change. -/
inductive Inserts (template : Op) : List OpKind → Editor → Editor → Prop
  | done (r : Editor) : Inserts template [] r r
  | add {kind : OpKind} {kinds : List OpKind} {inputs : List TensorId} {output : TensorId} {n : Nat}
      {r r₁ r' : Editor} (hfirst : (insertAs template kind inputs output).run
        { r with graph := { r.graph with nextTemp := n } } = (.ok (), r₁)) (hrest : Inserts template kinds r₁ r') :
      Inserts template (kind :: kinds) r r'

namespace Inserts

variable {kinds : List OpKind}

/-- An insertion under a fresh name, and others after it. -/
theorem beside (h : (insertBeside op kind inputs).run r = (.ok t, r₁)) (hrest : Inserts op kinds r₁ r') :
    Inserts op (kind :: kinds) r r' := by
  obtain ⟨base, -, h⟩ := Stateful.run_liftM_bind_ok.1 h
  obtain ⟨output, r₂, htemp, h⟩ := Stateful.run_bind_ok.1 h
  obtain ⟨_, r₃, hinsert, h⟩ := Stateful.run_bind_ok.1 h
  cases h
  cases htemp
  exact .add hinsert hrest

/-- The insertion of the op that produces the result. -/
theorem conclude (h : (Pattern.conclude op kind inputs).run r = (.ok (), r')) : Inserts op [kind] r r' := by
  obtain ⟨output, -, h⟩ := Stateful.run_liftM_bind_ok.1 h
  exact .add (n := r.graph.nextTemp) h (.done r')

end Inserts

end Editor

namespace Pattern

/-! ## Where a pattern applies -/

/-- What a built-in pattern does around `op` where it applies. -/
inductive Acts (op : Op) (r r' : Editor) : Prop
  | replaces {kinds : List OpKind} {r₁ : Editor} (hdetach : (Editor.detach op).run r = (.ok (), r₁))
      (hinserts : Editor.Inserts op kinds r₁ r') (hweight : (kinds.map OpKind.weight).sum < op.kind.weight)
  | folds {values : List HostTensor} {r₁ : Editor} (hdetach : (Editor.detach op).run r = (.ok (), r₁))
      (hmake : ((op.outputs.zip values).forM fun (output, value) => Editor.onGraph
        (Stateful.change fun g => do return ((), ← g.makeConst output value))).run r₁ = (.ok (), r'))
  | drops {input output : TensorId} {r₁ : Editor} (huses : (Editor.replaceAllUses output input).run r = (.ok (), r₁))
      (herase : (Editor.erase op).run r₁ = (.ok (), r'))

/-- The steps of a lowering insert ops that weigh less than `w` together. -/
def Spells (w : Nat) (steps : Op → EditM Unit) : Prop := ∀ {op r r'}, (steps op).run r = (.ok (), r') →
  ∃ kinds, Editor.Inserts op kinds r r' ∧ (kinds.map OpKind.weight).sum < w

theorem acts_lowering {name : String} {f : UnaryGrad} {steps : Op → EditM Unit}
    (hsteps : Spells (OpKind.unaryGrad f).weight steps)
    (happ : (lowering name (· == .unaryGrad f) steps).applies op = true)
    (hrun : ((lowering name (· == .unaryGrad f) steps).attempt op).run r = (.ok true, r')) : Acts op r r' := by
  have hkind : op.kind = .unaryGrad f := by simpa [lowering] using happ
  obtain ⟨_, r₁, hdetach, hrun⟩ := Stateful.run_bind_ok.1 hrun
  obtain ⟨_, r₂, hlower, hrun⟩ := Stateful.run_bind_ok.1 hrun
  cases hrun
  obtain ⟨kinds, hinserts, hweight⟩ := hsteps hlower
  exact .replaces hdetach hinserts (hkind ▸ hweight)

/-- The same for the steps of the lowering of a gradient for an operand. -/
def SpellsOperand (w : Nat) (steps : Op → EditM TensorId) : Prop := ∀ {op r t r'}, (steps op).run r = (.ok t, r') →
  ∀ {kinds r''}, Editor.Inserts op kinds r' r'' →
    ∃ more, Editor.Inserts op (more ++ kinds) r r'' ∧ (more.map OpKind.weight).sum + 2 < w

theorem acts_operandLowering {name : String} {f : OperandGrad} {steps : Op → EditM TensorId}
    (hsteps : ∀ shape, SpellsOperand (OpKind.operandGrad f shape).weight steps)
    (happ : (operandLowering name f steps).applies op = true)
    (hrun : ((operandLowering name f steps).attempt op).run r = (.ok true, r')) : Acts op r r' := by
  obtain ⟨shape, hkind⟩ := isOperandGrad_iff.1 happ
  simp only [operandLowering, hkind] at hrun
  obtain ⟨_, r₁, hdetach, hrun⟩ := Stateful.run_bind_ok.1 hrun
  obtain ⟨t, r₂, hlower, hrun⟩ := Stateful.run_bind_ok.1 hrun
  obtain ⟨_, r₃, hconclude, hrun⟩ := Stateful.run_bind_ok.1 hrun
  cases hrun
  obtain ⟨more, hinserts, hweight⟩ := hsteps shape hlower (.conclude hconclude)
  refine .replaces hdetach hinserts ?_
  rw [hkind, List.map_append, List.sum_append]
  exact hweight

theorem acts_lowerSqrtGrad (happ : lowerSqrtGrad.applies op = true)
    (hrun : (lowerSqrtGrad.attempt op).run r = (.ok true, r')) : Acts op r r' := by
  refine acts_lowering (fun {op r r'} h => ?_) happ hrun
  obtain ⟨_, -, h⟩ := input_ok h
  obtain ⟨_, r₁, hinsert, h⟩ := Stateful.run_bind_ok.1 h
  obtain ⟨_, -, h⟩ := input_ok h
  exact ⟨_, .beside hinsert (.conclude h), by decide +kernel⟩

theorem acts_lowerReciprocalGrad (happ : lowerReciprocalGrad.applies op = true)
    (hrun : (lowerReciprocalGrad.attempt op).run r = (.ok true, r')) : Acts op r r' := by
  refine acts_lowering (fun {op r r'} h => ?_) happ hrun
  obtain ⟨_, -, h⟩ := input_ok h
  obtain ⟨_, r₁, hsquare, h⟩ := Stateful.run_bind_ok.1 h
  obtain ⟨_, -, h⟩ := input_ok h
  obtain ⟨_, r₂, hdivide, h⟩ := Stateful.run_bind_ok.1 h
  exact ⟨_, .beside hsquare (.beside hdivide (.conclude h)), by decide +kernel⟩

theorem acts_lowerExpGrad (happ : lowerExpGrad.applies op = true)
    (hrun : (lowerExpGrad.attempt op).run r = (.ok true, r')) : Acts op r r' :=
  acts_lowering (fun h => ⟨_, .conclude h, by decide +kernel⟩) happ hrun

theorem acts_lowerDivLeftGrad (happ : lowerDivLeftGrad.applies op = true)
    (hrun : (lowerDivLeftGrad.attempt op).run r = (.ok true, r')) : Acts op r r' := by
  refine acts_operandLowering (fun shape {op r t r'} h {kinds r''} hrest => ?_) happ hrun
  obtain ⟨_, -, h⟩ := input_ok h
  obtain ⟨_, -, h⟩ := input_ok h
  exact ⟨[_], .beside h hrest, show 3 < 4 by decide⟩

theorem acts_lowerDivRightGrad (happ : lowerDivRightGrad.applies op = true)
    (hrun : (lowerDivRightGrad.attempt op).run r = (.ok true, r')) : Acts op r r' := by
  refine acts_operandLowering (fun shape {op r t r'} h {kinds r''} hrest => ?_) happ hrun
  obtain ⟨_, -, h⟩ := input_ok h
  obtain ⟨_, -, h⟩ := input_ok h
  obtain ⟨_, r₁, hscale, h⟩ := Stateful.run_bind_ok.1 h
  obtain ⟨_, -, h⟩ := input_ok h
  obtain ⟨_, r₂, hsquare, h⟩ := Stateful.run_bind_ok.1 h
  obtain ⟨_, r₃, hdivide, h⟩ := Stateful.run_bind_ok.1 h
  exact ⟨[_, _, _, _], .beside hscale (.beside hsquare (.beside hdivide (.beside h hrest))), show 6 < 7 by decide⟩

theorem acts_lowerMulGrad (happ : lowerMulGrad.applies op = true)
    (hrun : (lowerMulGrad.attempt op).run r = (.ok true, r')) : Acts op r r' := by
  refine acts_operandLowering (fun shape {op r t r'} h {kinds r''} hrest => ?_) happ hrun
  exact ⟨[_], .beside h hrest, show 3 < 4 by decide⟩

theorem acts_lowerSubRightGrad (happ : lowerSubRightGrad.applies op = true)
    (hrun : (lowerSubRightGrad.attempt op).run r = (.ok true, r')) : Acts op r r' := by
  refine acts_operandLowering (fun shape {op r t r'} h {kinds r''} hrest => ?_) happ hrun
  obtain ⟨_, -, h⟩ := input_ok h
  exact ⟨[_], .beside h hrest, show 3 < 4 by decide⟩

theorem weight_of_mayPassOn (h : mayPassOn kind = true) : kind.weight = 2 := by
  unfold OpKind.weight
  split
  case h_6 => rw [if_pos h]
  all_goals cases h

theorem acts_toIdentity (happ : toIdentity.applies op = true)
    (hrun : (toIdentity.attempt op).run r = (.ok true, r')) : Acts op r r' := by
  obtain ⟨a, -, hrun⟩ := input_ok hrun
  obtain ⟨out, -, hrun⟩ := Stateful.run_liftM_bind_ok.1 hrun
  replace hrun := Stateful.of_get_bind hrun
  simp only at hrun
  split at hrun
  · obtain ⟨_, r₁, hdetach, hrun⟩ := Stateful.run_bind_ok.1 hrun
    obtain ⟨_, r₂, hinsert, hrun⟩ := Stateful.run_bind_ok.1 hrun
    cases hrun
    refine .replaces hdetach (.add (n := r₁.graph.nextTemp) hinsert (.done r')) ?_
    rw [weight_of_mayPassOn (Bool.and_eq_true_iff.1 happ).1]
    decide
  · cases hrun

theorem acts_dropIdentity (hrun : (dropIdentity.attempt op).run r = (.ok true, r')) : Acts op r r' := by
  obtain ⟨a, -, hrun⟩ := input_ok hrun
  obtain ⟨out, -, hrun⟩ := Stateful.run_liftM_bind_ok.1 hrun
  replace hrun := Stateful.of_get_bind hrun
  split at hrun
  · cases hrun
  · obtain ⟨_, r₁, huses, hrun⟩ := Stateful.run_bind_ok.1 hrun
    obtain ⟨_, r₂, herase, hrun⟩ := Stateful.run_bind_ok.1 hrun
    cases hrun
    exact .drops huses herase

theorem acts_foldConstants {b : Backend} (hrun : ((foldConstants b).attempt op).run r = (.ok true, r')) :
    Acts op r r' := by
  replace hrun := Stateful.of_get_bind hrun
  simp only at hrun
  split at hrun
  · cases hrun
  · obtain ⟨infos, r₁, hinfos, hrun⟩ := Stateful.run_bind_ok.1 hrun
    rw [Stateful.run_lift, Prod.mk.injEq] at hinfos
    obtain ⟨-, rfl⟩ := hinfos
    obtain ⟨values, -, hrun⟩ := Stateful.run_liftM_bind_ok.1 hrun
    obtain ⟨_, r₃, hdetach, hrun⟩ := Stateful.run_bind_ok.1 hrun
    obtain ⟨_, r₄, hmake, hrun⟩ := Stateful.run_bind_ok.1 hrun
    cases hrun
    exact .folds hdetach hmake

end Pattern

/-- Where a built-in pattern applies, it acts in one of the three ways. -/
theorem BuiltIn.acts (hp : k.pattern? backend = some p) (happ : p.applies op = true)
    (hrun : (p.attempt op).run r = (.ok true, r')) : Pattern.Acts op r r' := by
  cases k with
  | foldConstants =>
    obtain ⟨b, -, rfl⟩ := Option.map_eq_some_iff.1 hp
    exact Pattern.acts_foldConstants hrun
  | inPlace => cases hp
  | dropIdentity => cases hp; exact Pattern.acts_dropIdentity hrun
  | toIdentity => cases hp; exact Pattern.acts_toIdentity happ hrun
  | lowerSubRightGrad => cases hp; exact Pattern.acts_lowerSubRightGrad happ hrun
  | lowerMulGrad => cases hp; exact Pattern.acts_lowerMulGrad happ hrun
  | lowerReciprocalGrad => cases hp; exact Pattern.acts_lowerReciprocalGrad happ hrun
  | lowerSqrtGrad => cases hp; exact Pattern.acts_lowerSqrtGrad happ hrun
  | lowerDivLeftGrad => cases hp; exact Pattern.acts_lowerDivLeftGrad happ hrun
  | lowerDivRightGrad => cases hp; exact Pattern.acts_lowerDivRightGrad happ hrun
  | lowerExpGrad => cases hp; exact Pattern.acts_lowerExpGrad happ hrun

/-! ## Where it does not -/

namespace Pattern

/-- Two graphs are alike around an op: its tensors have the same infos, its operands are constants of the same values,
and the same tensors are to be kept. -/
structure AlikeAround (op : Op) (g g' : Graph) : Prop where
  info : ∀ t, t ∈ op.inputs ∨ t ∈ op.outputs → g'.info? t = g.info? t
  constant : ∀ t ∈ op.inputs, constantValue? g' t = constantValue? g t
  kept : g'.kept = g.kept

theorem AlikeAround.refl (op : Op) (g : Graph) : AlikeAround op g g := ⟨fun _ _ => rfl, fun _ _ => rfl, rfl⟩

theorem mem_of_output (h : op.output = .ok t) : t ∈ op.outputs :=
  List.mem_of_head? (Outcome.promised_eq_ok.1 h)

/-- A pattern that does not apply to an op says so from what surrounds the op, and leaves everything as it is. -/
def Looks (p : Pattern) : Prop := ∀ {op r r₁ r'}, p.applies op = true → (p.attempt op).run r = (.ok false, r₁) →
  AlikeAround op r.graph r'.graph → (p.attempt op).run r' = (.ok false, r')

theorem looks_lowering {name : String} {applies : OpKind → Bool} {steps : Op → EditM Unit} :
    (lowering name applies steps).Looks := by
  intro op r r₁ r' _ hrun _
  obtain ⟨_, _, -, hrun⟩ := Stateful.run_bind_ok.1 hrun
  obtain ⟨_, _, -, hrun⟩ := Stateful.run_bind_ok.1 hrun
  cases hrun

theorem looks_operandLowering {name : String} {f : OperandGrad} {steps : Op → EditM TensorId} :
    (operandLowering name f steps).Looks := by
  intro op r r₁ r' happ hrun _
  obtain ⟨shape, hkind⟩ := isOperandGrad_iff.1 happ
  simp only [operandLowering, hkind] at hrun
  obtain ⟨_, _, -, hrun⟩ := Stateful.run_bind_ok.1 hrun
  obtain ⟨_, _, -, hrun⟩ := Stateful.run_bind_ok.1 hrun
  obtain ⟨_, _, -, hrun⟩ := Stateful.run_bind_ok.1 hrun
  cases hrun

theorem looks_toIdentity : toIdentity.Looks := by
  intro op r r₁ r' _ hrun halike
  obtain ⟨a, ha, hrun⟩ := input_ok hrun
  obtain ⟨out, hout, hrun⟩ := Stateful.run_liftM_bind_ok.1 hrun
  replace hrun := Stateful.of_get_bind hrun
  have hinput : op.input 0 = .ok a := Outcome.promised_eq_ok.2 ha
  simp only at hrun
  split at hrun
  · obtain ⟨_, _, -, hrun⟩ := Stateful.run_bind_ok.1 hrun
    obtain ⟨_, _, -, hrun⟩ := Stateful.run_bind_ok.1 hrun
    cases hrun
  · rename_i hcond
    rw [← halike.info a (.inl (List.mem_of_getElem? ha)), ← halike.info out (.inr (mem_of_output hout))] at hcond
    refine Stateful.run_bind_ok.2 ⟨a, r', Prod.ext hinput rfl, ?_⟩
    refine Stateful.run_bind_ok.2 ⟨out, r', Prod.ext hout rfl, ?_⟩
    refine Stateful.run_bind_ok.2 ⟨r', r', rfl, ?_⟩
    simp only [if_neg hcond]
    rfl

theorem looks_dropIdentity : dropIdentity.Looks := by
  intro op r r₁ r' _ hrun halike
  obtain ⟨a, ha, hrun⟩ := input_ok hrun
  obtain ⟨out, hout, hrun⟩ := Stateful.run_liftM_bind_ok.1 hrun
  replace hrun := Stateful.of_get_bind hrun
  have hinput : op.input 0 = .ok a := Outcome.promised_eq_ok.2 ha
  split at hrun
  · rename_i hkept
    rw [Graph.isKept, ← halike.kept] at hkept
    refine Stateful.run_bind_ok.2 ⟨a, r', Prod.ext hinput rfl, ?_⟩
    refine Stateful.run_bind_ok.2 ⟨out, r', Prod.ext hout rfl, ?_⟩
    refine Stateful.run_bind_ok.2 ⟨r', r', rfl, ?_⟩
    rw [if_pos (show r'.graph.isKept out = true from hkept)]
    rfl
  · obtain ⟨_, _, -, hrun⟩ := Stateful.run_bind_ok.1 hrun
    obtain ⟨_, _, -, hrun⟩ := Stateful.run_bind_ok.1 hrun
    cases hrun

theorem looks_foldConstants (b : Backend) : (foldConstants b).Looks := by
  intro op r r₁ r' _ hrun halike
  replace hrun := Stateful.of_get_bind hrun
  simp only at hrun
  split at hrun
  · rename_i hnone
    have hnone' : op.inputs.mapM (constantValue? r'.graph) = none :=
      (mapM_congr_of_mem halike.constant).trans hnone
    refine Stateful.run_bind_ok.2 ⟨r', r', rfl, ?_⟩
    simp only [hnone']
    rfl
  · obtain ⟨_, _, -, hrun⟩ := Stateful.run_bind_ok.1 hrun
    obtain ⟨_, _, -, hrun⟩ := Stateful.run_bind_ok.1 hrun
    obtain ⟨_, _, -, hrun⟩ := Stateful.run_bind_ok.1 hrun
    obtain ⟨_, _, -, hrun⟩ := Stateful.run_bind_ok.1 hrun
    cases hrun

end Pattern

theorem BuiltIn.looks (hp : k.pattern? backend = some p) : p.Looks := by
  cases k with
  | foldConstants =>
    obtain ⟨b, -, rfl⟩ := Option.map_eq_some_iff.1 hp
    exact Pattern.looks_foldConstants b
  | inPlace => cases hp
  | dropIdentity => cases hp; exact Pattern.looks_dropIdentity
  | toIdentity => cases hp; exact Pattern.looks_toIdentity
  | lowerSubRightGrad | lowerMulGrad | lowerDivLeftGrad | lowerDivRightGrad =>
    cases hp; exact Pattern.looks_operandLowering
  | lowerReciprocalGrad | lowerSqrtGrad | lowerExpGrad => cases hp; exact Pattern.looks_lowering

end TensorGraph
