import TensorGraph.Proofs.Pattern.Rewrite

/-!
The built-in patterns one by one. Each of them either leaves the graph as it is and says so, or it drops an identity,
folds an op, or puts other ops in its place.
-/
namespace TensorGraph

open TensorGraph.Graph

variable {g g' : Graph} {op : Op} {t output : TensorId} {info : TensorInfo} {r r' : Editor} {l : List TensorId}
  {kind : OpKind} {inputs : List TensorId}

namespace Editor

theorem run_insertAs_ok (hs : r.graph.Sound) {u : Unit} (h : (insertAs op kind inputs output).run r = (.ok u, r')) :
    ∃ new info, Enters r.graph new output info r'.graph ∧ new.kind = kind ∧ new.inputs = inputs ∧
      SamePlace op new := by
  obtain ⟨id, r₁, hadd, h⟩ := Stateful.run_bind_ok.1 h
  obtain ⟨_, r₂, hmodify, h⟩ := Stateful.run_bind_ok.1 h
  cases hmodify
  cases h
  obtain ⟨output', info, hout, rfl, ha⟩ := addOp_ok (Stateful.run_change_ok.1 (run_onGraph_ok hadd))
  cases hout
  rw [bumpUsers_graph, foldl_graph fun r i => bumpProducer_graph i]
  exact ⟨_, info, .of_addedOp hs ha (fun _ => rfl) (fun _ => rfl) (fun _ => rfl) (fun _ => rfl), rfl, rfl,
    rfl, rfl, rfl, rfl⟩

theorem run_insertBeside_ok (hs : r.graph.Sound) (h : (insertBeside op kind inputs).run r = (.ok t, r')) :
    r.graph.tensor? t = none ∧ ∃ new info, Enters r.graph new t info r'.graph ∧ new.kind = kind ∧
      new.inputs = inputs ∧ SamePlace op new := by
  obtain ⟨base, -, h⟩ := Stateful.run_liftM_bind_ok.1 h
  obtain ⟨output, r₁, htemp, h⟩ := Stateful.run_bind_ok.1 h
  obtain ⟨_, r₂, hinsert, h⟩ := Stateful.run_bind_ok.1 h
  cases h
  have hcall := Stateful.run_change_ok.1 (run_onGraph_ok htemp)
  have hfresh := tempId_fresh (g := r.graph) base
  obtain ⟨n, hn⟩ := tempId_snd (g := r.graph) base
  rw [Except.ok.injEq, Prod.ext_iff] at hcall
  obtain ⟨rfl, hsnd⟩ := hcall
  rw [hn] at hsnd
  change _ = r₁.graph at hsnd
  have hs₁ : r₁.graph.Sound := by
    rw [← hsnd]
    exact hs.of_bare (hs.linked.of_lookups (fun _ => rfl) fun _ => rfl) (fun ho => ⟨_, ho⟩) (fun _ => rfl) rfl rfl
  obtain ⟨new, info, he, hnew⟩ := run_insertAs_ok hs₁ hinsert
  rw [← hsnd] at he
  exact ⟨hfresh, new, info, he.of_nextTemp, hnew⟩

theorem info?_of_insertBeside (hs : r.graph.Sound) (h : (insertBeside op kind inputs).run r = (.ok t, r'))
    {u : TensorId} (hi : r.graph.info? u = some info) : r'.graph.info? u = some info := by
  obtain ⟨hfresh, new, _, he, -⟩ := run_insertBeside_ok hs h
  refine he.info?_of hi ?_
  rintro rfl
  obtain ⟨x, hx, -⟩ := info?_eq_some.1 hi
  rw [hfresh] at hx
  cases hx

/-- One more op that helps to replace `op`, with its info. -/
theorem beside_ok (hb : Beside op l g r.graph) (hs : r.graph.Sound)
    (h : (insertBeside op kind inputs).run r = (.ok t, r')) (hplain : kind.Plain)
    (hreads : ∀ i ∈ inputs, i ∈ op.inputs ∨ i ∈ l) :
    Beside op (t :: l) g r'.graph ∧ r'.graph.Sound ∧ ∃ infos info, inputs.mapM r.graph.info? = some infos ∧
      kind.infer infos = .ok info ∧ r'.graph.info? t = some info := by
  obtain ⟨hfresh, new, info, he, rfl, rfl, hplace⟩ := run_insertBeside_ok hs h
  obtain ⟨infos, hinfos, hinfer⟩ := he.added.infers
  exact ⟨.add hb he hfresh ⟨hplace, hplain, hreads⟩, he.sound, infos, info, mapM_info_eq_ok.1 hinfos, hinfer,
    he.info?_output⟩

end Editor

namespace Pattern

/-- The end of a replacement: the last op produces the result. -/
theorem conclude_ok {g₁ : Graph} (hd : DroppedOp g op.id op false g₁) (hout : op.outputs = [output])
    (hb : Beside op l g₁ r.graph) (hs : r.graph.Sound) {u : Unit}
    (h : (conclude op kind inputs).run r = (.ok u, r')) (hplain : kind.Plain)
    (hreads : ∀ i ∈ inputs, i ∈ op.inputs ∨ i ∈ l) :
    ∃ infos info, inputs.mapM r.graph.info? = some infos ∧ kind.infer infos = .ok info ∧
      Replaces op output info g r'.graph := by
  have houtput : op.output = .ok output := by simp [Op.output, hout, Outcome.promised]
  obtain ⟨out, heq, h⟩ := Stateful.run_liftM_bind_ok.1 h
  rw [houtput] at heq
  cases heq
  obtain ⟨new, info, he, rfl, rfl, hplace⟩ := Editor.run_insertAs_ok hs h
  obtain ⟨infos, hinfos, hinfer⟩ := he.added.infers
  exact ⟨infos, info, mapM_info_eq_ok.1 hinfos, hinfer, g₁, r.graph, l, new, hd, hb, he,
    ⟨hplace, hplain, hreads⟩⟩

/-- The start of a replacement. -/
theorem detach_ok (hs : r.graph.Sound) (ho : r.graph.op? op.id = some op) {u : Unit}
    (h : (Editor.detach op).run r = (.ok u, r')) :
    DroppedOp r.graph op.id op false r'.graph ∧ r'.graph.Sound ∧ ∀ t, r'.graph.info? t = r.graph.info? t := by
  obtain ⟨removed, hdetach⟩ := Editor.run_detach_ok h
  have hd := detachOp_ok hdetach
  cases hd.found.symm.trans ho
  exact ⟨hd, hs.dropOp hd nofun, hd.info?_eq⟩

/-- A call that asks for an operand of an op first gets it. -/
theorem input_ok {α : Type} {i : Nat} {f : TensorId → EditM α} {a : α}
    (h : ((liftM (op.input i) : EditM TensorId) >>= f).run r = (.ok a, r')) :
    ∃ t, op.inputs[i]? = some t ∧ (f t).run r = (.ok a, r') := by
  obtain ⟨t, ht, h⟩ := Stateful.run_liftM_bind_ok.1 h
  rw [Op.input, Outcome.promised_eq_ok] at ht
  exact ⟨t, ht, h⟩

/-- What is promised of a pattern: where it applies to an op and says that it changed the graph, the graph is
rewritten; where it says that it did not, the graph is as it was. -/
structure Keeps (p : Pattern) : Prop where
  changed : ∀ {op r r'}, r.graph.Steady none → r.graph.op? op.id = some op → p.applies op = true →
    (p.attempt op).run r = (.ok true, r') → Redrafted r.graph r'.graph
  unchanged : ∀ {op r r'}, (p.attempt op).run r = (.ok false, r') → r'.graph = r.graph

/-! ## Patterns that put ops in the place of one -/

/-- If the op is the gradient of a function of one element, its second operand stretches to the shape of its first. -/
def SavedFits (g : Graph) (op : Op) : Prop := ∀ f i j, op.kind = .unaryGrad f → op.inputs.mapM g.info? = some [i, j] →
  i.shape.broadcast j.shape = .ok i.shape

theorem SavedFits.of_matched (h : g.Matched) (ho : g.op? op.id = some op) : SavedFits g op := by
  intro f i j hk hinfos
  rw [h op.id op f i j ho hk hinfos, Shape.broadcast_self]

/-- Where the pattern applies to an op, others stand in for it. If infos are right, its result keeps its own. -/
def Respells (p : Pattern) : Prop := ∀ {op r r' output}, r.graph.Sound → r.graph.op? op.id = some op →
  op.outputs = [output] → p.applies op = true → (p.attempt op).run r = (.ok true, r') →
    op.kind.isLossGrad = false ∧ ¬ (op.kind = .sum ∧ 2 ≤ op.inputs.length) ∧
      ∃ info, Replaces op output info r.graph r'.graph ∧
        (r.graph.Inferred → SavedFits r.graph op → r.graph.info? output = some info)

theorem Respells.keeps {p : Pattern} (h : p.Respells)
    (hno : ∀ {op r r'}, (p.attempt op).run r = (.ok false, r') → r'.graph = r.graph) : p.Keeps where
  changed hsteady ho happ hrun := by
    obtain ⟨output, hout⟩ := hsteady.single ho
    obtain ⟨hgrad, hsum, info, hr, hinfo⟩ := h hsteady.sound ho hout happ hrun
    exact hr.redrafted hsteady hout hgrad hsum fun hg => hinfo hg.inferred (.of_matched hg.matched ho)
  unchanged := hno

/-! ## Lowering -/

/-- The infos of a gradient of a function of one element: the result has that of the first operand. -/
theorem unaryGrad_infos {f : UnaryGrad} (hg : g.Inferred) (hfits : SavedFits g op) (ho : g.op? op.id = some op)
    (hk : op.kind = .unaryGrad f) (hout : op.outputs = [output]) : ∃ a b i j, op.inputs = [a, b] ∧
      g.info? a = some i ∧ g.info? b = some j ∧ i.shape.broadcast j.shape = .ok i.shape ∧ g.info? output = some i := by
  obtain ⟨out, infos, info, hout', hinfos, hinfer, hinfo⟩ := hg op.id op ho
  cases hout.symm.trans hout'
  rw [hk] at hinfer
  obtain ⟨j, rfl⟩ := OpKind.infer_unaryGrad hinfer
  have hshape := hfits f info j hk hinfos
  rw [mapM_eq_some_iff] at hinfos
  obtain ⟨a, l, ha, hl, heq⟩ := List.forall₂_cons_right_iff.1 hinfos
  obtain ⟨b, l', hb, hl', rfl⟩ := List.forall₂_cons_right_iff.1 hl
  rw [List.forall₂_nil_right_iff] at hl'
  subst hl'
  exact ⟨a, b, info, j, heq, ha, hb, hshape, hinfo⟩

/-- The steps of a lowering of such a gradient: ops beside it, and one that concludes. The last op has the info of the
first operand, if the second one stretches to its shape. -/
def Lowers (steps : Op → EditM Unit) : Prop := ∀ {op r r'}, r.graph.Sound → (steps op).run r = (.ok (), r') →
  ∃ l r₁ kind inputs, Beside op l r.graph r₁.graph ∧ r₁.graph.Sound ∧
    (conclude op kind inputs).run r₁ = (.ok (), r') ∧ kind.Plain ∧
    (∀ i ∈ inputs, i ∈ op.inputs ∨ i ∈ l) ∧
    ∀ {a b i j}, op.inputs = [a, b] → r.graph.info? a = some i → r.graph.info? b = some j →
      i.shape.broadcast j.shape = .ok i.shape →
        ∀ {infos info}, inputs.mapM r₁.graph.info? = some infos → kind.infer infos = .ok info → info = i

theorem respells_lowering {name : String} {f : UnaryGrad} {steps : Op → EditM Unit} (hsteps : Lowers steps) :
    (lowering name (· == .unaryGrad f) steps).Respells := by
  intro op r r' output hs ho hout happ hrun
  have hkind : op.kind = .unaryGrad f := by simpa [lowering] using happ
  obtain ⟨_, r₁, hdetach, hrun⟩ := Stateful.run_bind_ok.1 hrun
  obtain ⟨hd, hs₁, hi⟩ := detach_ok hs ho hdetach
  obtain ⟨_, r₂, hlower, hrun⟩ := Stateful.run_bind_ok.1 hrun
  cases hrun
  obtain ⟨l, r₃, kind, inputs, hbeside, hs₃, hconclude, hplain, hreads, hinfo⟩ := hsteps hs₁ hlower
  obtain ⟨infos, info, hin, hinfer, hr⟩ := conclude_ok hd hout hbeside hs₃ hconclude hplain hreads
  refine ⟨by rw [hkind]; rfl, by rw [hkind]; nofun, info, hr, fun hg hfits => ?_⟩
  obtain ⟨a, b, i, j, hinputs, ha, hb, hshape, hresult⟩ := unaryGrad_infos hg hfits ho hkind hout
  rw [hresult, hinfo hinputs ((hi a).trans ha) ((hi b).trans hb) hshape hin hinfer]

theorem keeps_lowering {name : String} {applies : OpKind → Bool} {steps : Op → EditM Unit}
    (h : (lowering name applies steps).Respells) : (lowering name applies steps).Keeps := by
  refine h.keeps fun {op r r'} hrun => ?_
  obtain ⟨_, r₁, -, hrun⟩ := Stateful.run_bind_ok.1 hrun
  obtain ⟨_, r₂, -, hrun⟩ := Stateful.run_bind_ok.1 hrun
  cases hrun

theorem mapM_pair {f : TensorId → Option TensorInfo} {a b : TensorId} {infos : List TensorInfo}
    (h : [a, b].mapM f = some infos) : ∃ i j, infos = [i, j] ∧ f a = some i ∧ f b = some j := by
  rw [mapM_eq_some_iff] at h
  obtain ⟨i, l, hi, hl, rfl⟩ := List.forall₂_cons_left_iff.1 h
  obtain ⟨j, l', hj, hl', rfl⟩ := List.forall₂_cons_left_iff.1 hl
  rw [List.forall₂_nil_left_iff] at hl'
  subst hl'
  exact ⟨i, j, rfl, hi, hj⟩

theorem mapM_single {f : TensorId → Option TensorInfo} {a : TensorId} {infos : List TensorInfo}
    (h : [a].mapM f = some infos) : ∃ i, infos = [i] ∧ f a = some i := by
  rw [mapM_eq_some_iff] at h
  obtain ⟨i, l, hi, hl, rfl⟩ := List.forall₂_cons_left_iff.1 h
  rw [List.forall₂_nil_left_iff] at hl
  subst hl
  exact ⟨i, rfl, hi⟩

theorem respells_lowerSqrtGrad : lowerSqrtGrad.Respells := by
  refine respells_lowering fun {op r r'} hs hrun => ?_
  obtain ⟨b, hb, hrun⟩ := input_ok hrun
  obtain ⟨doubled, r₁, hinsert, hrun⟩ := Stateful.run_bind_ok.1 hrun
  obtain ⟨hbeside, hs₁, infos₁, i₁, hin₁, hinfer₁, hinfo₁⟩ := Editor.beside_ok (.start _) hs hinsert ⟨nofun, nofun⟩
    fun i hi => .inl (List.mem_singleton.1 hi ▸ List.mem_of_getElem? hb)
  obtain ⟨a, ha, hrun⟩ := input_ok hrun
  refine ⟨_, _, _, _, hbeside, hs₁, hrun, ⟨nofun, nofun⟩, fun i hi => ?_, ?_⟩
  · rcases List.mem_cons.1 hi with rfl | hi
    · exact .inl (List.mem_of_getElem? ha)
    · exact .inr hi
  · intro a' b' i j hinputs hai hbj hshape infos info hin hinfer
    rw [hinputs] at ha hb
    cases ha
    cases hb
    obtain ⟨j', rfl, hj'⟩ := mapM_single hin₁
    cases hbj.symm.trans hj'
    cases OpKind.infer_unary hinfer₁
    obtain ⟨x, y, rfl, hx, hy⟩ := mapM_pair hin
    cases (hbeside.info?_of hai).symm.trans hx
    cases hinfo₁.symm.trans hy
    exact OpKind.infer_binary_within hinfer hshape

theorem respells_lowerReciprocalGrad : lowerReciprocalGrad.Respells := by
  refine respells_lowering fun {op r r'} hs hrun => ?_
  obtain ⟨b, hb, hrun⟩ := input_ok hrun
  obtain ⟨squared, r₁, hinsert, hrun⟩ := Stateful.run_bind_ok.1 hrun
  obtain ⟨hbeside₁, hs₁, infos₁, i₁, hin₁, hinfer₁, hinfo₁⟩ := Editor.beside_ok (.start _) hs hinsert ⟨nofun, nofun⟩
    fun i hi => .inl (List.mem_singleton.1 hi ▸ List.mem_of_getElem? hb)
  obtain ⟨a, ha, hrun⟩ := input_ok hrun
  obtain ⟨ratio, r₂, hinsert, hrun⟩ := Stateful.run_bind_ok.1 hrun
  obtain ⟨hbeside₂, hs₂, infos₂, i₂, hin₂, hinfer₂, hinfo₂⟩ := Editor.beside_ok hbeside₁ hs₁ hinsert ⟨nofun, nofun⟩
    fun i hi => by
      rcases List.mem_cons.1 hi with rfl | hi
      · exact .inl (List.mem_of_getElem? ha)
      · exact .inr hi
  refine ⟨_, _, _, _, hbeside₂, hs₂, hrun, ⟨nofun, nofun⟩, fun i hi => .inr ?_, ?_⟩
  · rw [List.mem_singleton.1 hi]
    exact List.mem_cons_self
  · intro a' b' i j hinputs hai hbj hshape infos info hin hinfer
    rw [hinputs] at ha hb
    cases ha
    cases hb
    obtain ⟨j', rfl, hj'⟩ := mapM_single hin₁
    cases hbj.symm.trans hj'
    cases OpKind.infer_unary hinfer₁
    obtain ⟨x, y, rfl, hx, hy⟩ := mapM_pair hin₂
    cases (hbeside₁.info?_of hai).symm.trans hx
    cases hinfo₁.symm.trans hy
    cases OpKind.infer_binary_within hinfer₂ hshape
    obtain ⟨z, rfl, hz⟩ := mapM_single hin
    cases hinfo₂.symm.trans hz
    cases OpKind.infer_unary hinfer
    rfl

theorem respells_lowerExpGrad : lowerExpGrad.Respells := by
  refine respells_lowering fun {op r r'} hs hrun => ?_
  refine ⟨_, _, _, _, .start _, hs, hrun, ⟨nofun, nofun⟩, fun i hi => .inl hi, ?_⟩
  intro a b i j hinputs hai hbj hshape infos info hin hinfer
  rw [hinputs] at hin
  obtain ⟨x, y, rfl, hx, hy⟩ := mapM_pair hin
  cases hai.symm.trans hx
  cases hbj.symm.trans hy
  exact OpKind.infer_binary_within hinfer hshape

/-! ## Gradients for an operand -/

/-- The steps of a lowering of the gradient for an operand: ops beside it, the last of which has the element type of
the incoming gradient. -/
def LowersOperand (steps : Op → EditM TensorId) : Prop := ∀ {op r t r'}, r.graph.Sound →
  (steps op).run r = (.ok t, r') → ∃ l, Beside op (t :: l) r.graph r'.graph ∧ r'.graph.Sound ∧
    ∀ {a i}, op.inputs.head? = some a → r.graph.info? a = some i →
      ∃ j, r'.graph.info? t = some j ∧ j.dtype = i.dtype

theorem isOperandGrad_iff {f : OperandGrad} : isOperandGrad f kind = true ↔ ∃ shape, kind = .operandGrad f shape := by
  constructor
  · intro h
    unfold isOperandGrad at h
    split at h
    · exact ⟨_, by rw [eq_of_beq h]⟩
    · cases h
  · rintro ⟨shape, rfl⟩
    exact beq_self_eq_true f

theorem respells_operandLowering {name : String} {f : OperandGrad} {steps : Op → EditM TensorId}
    (hsteps : LowersOperand steps) : (operandLowering name f steps).Respells := by
  intro op r r' output hs ho hout happ hrun
  obtain ⟨shape, hkind⟩ := isOperandGrad_iff.1 happ
  simp only [operandLowering, hkind] at hrun
  obtain ⟨_, r₁, hdetach, hrun⟩ := Stateful.run_bind_ok.1 hrun
  obtain ⟨hd, hs₁, hi⟩ := detach_ok hs ho hdetach
  obtain ⟨t, r₂, hlower, hrun⟩ := Stateful.run_bind_ok.1 hrun
  obtain ⟨_, r₃, hconclude, hrun⟩ := Stateful.run_bind_ok.1 hrun
  cases hrun
  obtain ⟨l, hbeside, hs₂, hdtype⟩ := hsteps hs₁ hlower
  obtain ⟨infos, info, hin, hinfer, hr⟩ := conclude_ok hd hout hbeside hs₂ hconclude ⟨nofun, nofun⟩
    fun i hi => .inr (List.mem_singleton.1 hi ▸ List.mem_cons_self)
  refine ⟨by rw [hkind]; rfl, by rw [hkind]; nofun, info, hr, fun hg _ => ?_⟩
  obtain ⟨out, infos', info', hout', hinfos', hinfer', hinfo'⟩ := hg op.id op ho
  cases hout.symm.trans hout'
  rw [hkind] at hinfer'
  obtain ⟨i, rest, rfl, rfl⟩ := OpKind.infer_operandGrad hinfer'
  rw [mapM_eq_some_iff] at hinfos'
  obtain ⟨a, l', ha, -, heq⟩ := List.forall₂_cons_right_iff.1 hinfos'
  obtain ⟨j, hj, hsame⟩ := hdtype (by rw [heq, List.head?_cons]) ((hi a).trans ha)
  obtain ⟨j', rfl, hj'⟩ := mapM_single hin
  cases hj.symm.trans hj'
  obtain ⟨x, hx, rfl⟩ := OpKind.infer_reduceToShape hinfer
  cases hx
  rw [hinfo', TensorInfo.withShape, TensorInfo.withShape, hsame]

theorem keeps_operandLowering {name : String} {f : OperandGrad} {steps : Op → EditM TensorId}
    (h : (operandLowering name f steps).Respells) : (operandLowering name f steps).Keeps := by
  refine h.keeps fun {op r r'} hrun => ?_
  simp only [operandLowering] at hrun
  split at hrun
  · obtain ⟨_, r₁, -, hrun⟩ := Stateful.run_bind_ok.1 hrun
    obtain ⟨_, r₂, -, hrun⟩ := Stateful.run_bind_ok.1 hrun
    obtain ⟨_, r₃, -, hrun⟩ := Stateful.run_bind_ok.1 hrun
    cases hrun
  · cases hrun
    rfl

theorem dtype_binary {f : Binary} {a b i : TensorInfo} (h : (OpKind.binary f).infer [a, b] = .ok i) :
    i.dtype = a.dtype := by
  obtain ⟨a', b', s, hab, -, rfl⟩ := OpKind.infer_binary h
  cases hab
  rfl

theorem respells_lowerDivLeftGrad : lowerDivLeftGrad.Respells := by
  refine respells_operandLowering fun {op r t r'} hs hrun => ?_
  obtain ⟨a, ha, hrun⟩ := input_ok hrun
  obtain ⟨b, hb, hrun⟩ := input_ok hrun
  obtain ⟨hbeside, hs₁, infos, j, hin, hinfer, hinfo⟩ := Editor.beside_ok (.start _) hs hrun ⟨nofun, nofun⟩
    fun i hi => .inl (by
      rcases List.mem_pair.1 hi with rfl | rfl
      · exact List.mem_of_getElem? ha
      · exact List.mem_of_getElem? hb)
  refine ⟨_, hbeside, hs₁, fun {a' i} ha' hai => ⟨j, hinfo, ?_⟩⟩
  rw [List.head?_eq_getElem?, ha] at ha'
  cases ha'
  obtain ⟨x, y, rfl, hx, -⟩ := mapM_pair hin
  cases hai.symm.trans hx
  exact dtype_binary hinfer

theorem respells_lowerDivRightGrad : lowerDivRightGrad.Respells := by
  refine respells_operandLowering fun {op r t r'} hs hrun => ?_
  obtain ⟨a, ha, hrun⟩ := input_ok hrun
  obtain ⟨b, hb, hrun⟩ := input_ok hrun
  obtain ⟨scaled, r₁, hinsert, hrun⟩ := Stateful.run_bind_ok.1 hrun
  obtain ⟨hbeside₁, hs₁, infos₁, i₁, hin₁, hinfer₁, hinfo₁⟩ := Editor.beside_ok (.start _) hs hinsert ⟨nofun, nofun⟩
    fun i hi => .inl (by
      rcases List.mem_pair.1 hi with rfl | rfl
      · exact List.mem_of_getElem? ha
      · exact List.mem_of_getElem? hb)
  obtain ⟨c, hc, hrun⟩ := input_ok hrun
  obtain ⟨squared, r₂, hinsert, hrun⟩ := Stateful.run_bind_ok.1 hrun
  have hscaled := Editor.info?_of_insertBeside hs₁ hinsert hinfo₁
  obtain ⟨hbeside₂, hs₂, -⟩ := Editor.beside_ok hbeside₁ hs₁ hinsert ⟨nofun, nofun⟩
    fun i hi => .inl (List.mem_singleton.1 hi ▸ List.mem_of_getElem? hc)
  obtain ⟨ratio, r₃, hinsert, hrun⟩ := Stateful.run_bind_ok.1 hrun
  obtain ⟨hbeside₃, hs₃, infos₃, i₃, hin₃, hinfer₃, hinfo₃⟩ := Editor.beside_ok hbeside₂ hs₂ hinsert ⟨nofun, nofun⟩
    fun i hi => .inr (by
      rcases List.mem_pair.1 hi with rfl | rfl <;> simp)
  obtain ⟨hbeside₄, hs₄, infos₄, i₄, hin₄, hinfer₄, hinfo₄⟩ := Editor.beside_ok hbeside₃ hs₃ hrun ⟨nofun, nofun⟩
    fun i hi => .inr (List.mem_singleton.1 hi ▸ List.mem_cons_self)
  refine ⟨_, hbeside₄, hs₄, fun {a' i} ha' hai => ⟨i₄, hinfo₄, ?_⟩⟩
  rw [List.head?_eq_getElem?, ha] at ha'
  cases ha'
  obtain ⟨x, y, rfl, hx, -⟩ := mapM_pair hin₁
  cases hai.symm.trans hx
  obtain ⟨x', y', rfl, hx', -⟩ := mapM_pair hin₃
  cases hscaled.symm.trans hx'
  obtain ⟨z, rfl, hz⟩ := mapM_single hin₄
  cases hinfo₃.symm.trans hz
  cases OpKind.infer_unary hinfer₄
  exact (dtype_binary hinfer₃).trans (dtype_binary hinfer₁)

theorem respells_lowerMulGrad : lowerMulGrad.Respells := by
  refine respells_operandLowering fun {op r t r'} hs hrun => ?_
  obtain ⟨hbeside, hs₁, infos, j, hin, hinfer, hinfo⟩ := Editor.beside_ok (.start _) hs hrun ⟨nofun, nofun⟩ fun i hi => .inl hi
  refine ⟨_, hbeside, hs₁, fun {a i} ha hai => ⟨j, hinfo, ?_⟩⟩
  obtain ⟨x, y, s, rfl, -, rfl⟩ := OpKind.infer_binary hinfer
  rw [mapM_eq_some_iff] at hin
  obtain ⟨a', l', hx, -, heq⟩ := List.forall₂_cons_right_iff.1 hin
  rw [heq, List.head?_cons] at ha
  cases ha
  cases hai.symm.trans hx
  rfl

theorem respells_lowerSubRightGrad : lowerSubRightGrad.Respells := by
  refine respells_operandLowering fun {op r t r'} hs hrun => ?_
  obtain ⟨a, ha, hrun⟩ := input_ok hrun
  obtain ⟨hbeside, hs₁, infos, j, hin, hinfer, hinfo⟩ := Editor.beside_ok (.start _) hs hrun ⟨nofun, nofun⟩
    fun i hi => .inl (List.mem_singleton.1 hi ▸ List.mem_of_getElem? ha)
  refine ⟨_, hbeside, hs₁, fun {a' i} ha' hai => ⟨j, hinfo, ?_⟩⟩
  rw [List.head?_eq_getElem?, ha] at ha'
  cases ha'
  obtain ⟨x, rfl, hx⟩ := mapM_single hin
  cases hai.symm.trans hx
  cases OpKind.infer_unary hinfer
  rfl

/-! ## Structural patterns -/

theorem isLossGrad_of_mayPassOn (h : mayPassOn kind = true) : kind.isLossGrad = false := by
  cases kind <;> first | rfl | cases h

/-- Where an op becomes an identity, its first operand has the info of its result, and is passed on. -/
theorem toIdentity_ok (hout : op.outputs = [output]) (hrun : (toIdentity.attempt op).run r = (.ok true, r')) :
    ∃ a r₁, op.inputs[0]? = some a ∧ r.graph.info? a = r.graph.info? output ∧ passesOn op = true ∧
      (Editor.detach op).run r = (.ok (), r₁) ∧ (conclude op .identity [a]).run r₁ = (.ok (), r') := by
  have houtput : op.output = .ok output := by simp [Op.output, hout, Outcome.promised]
  obtain ⟨a, ha, hrun⟩ := input_ok hrun
  obtain ⟨out, heq, hrun⟩ := Stateful.run_liftM_bind_ok.1 hrun
  rw [houtput] at heq
  cases heq
  replace hrun := Stateful.of_get_bind hrun
  simp only at hrun
  split at hrun
  · rename_i hcond
    simp only [Bool.and_eq_true, beq_iff_eq] at hcond
    obtain ⟨_, r₁, hdetach, hrun⟩ := Stateful.run_bind_ok.1 hrun
    obtain ⟨_, r₂, hinsert, hrun⟩ := Stateful.run_bind_ok.1 hrun
    cases hrun
    refine ⟨a, r₁, ha, hcond.1.2, hcond.2, hdetach, ?_⟩
    rw [conclude, houtput]
    exact hinsert
  · cases hrun

theorem respells_toIdentity : toIdentity.Respells := by
  intro op r r' output hs ho hout happ hrun
  obtain ⟨a, r₁, ha, hsame, hpass, hdetach, hconclude⟩ := toIdentity_ok hout hrun
  obtain ⟨hd, hs₁, hi⟩ := detach_ok hs ho hdetach
  obtain ⟨infos, info, hin, hinfer, hr⟩ := conclude_ok hd hout (.start _) hs₁ hconclude
    ⟨fun _ => OpKind.noConfusion, OpKind.noConfusion⟩ fun i hi => .inl (List.mem_singleton.1 hi ▸ List.mem_of_getElem? ha)
  have hsum : ¬ (op.kind = .sum ∧ 2 ≤ op.inputs.length) := by
    rintro ⟨hk, hlen⟩
    simp only [passesOn, hk, beq_iff_eq] at hpass
    omega
  have hmay : mayPassOn op.kind = true := (Bool.and_eq_true_iff.1 happ).1
  refine ⟨isLossGrad_of_mayPassOn hmay, hsum, info, hr, fun _ _ => ?_⟩
  obtain ⟨i, rfl, hai⟩ := mapM_single hin
  cases OpKind.infer_identity hinfer
  rw [← hsame, ← hi a, hai]

theorem keeps_toIdentity : toIdentity.Keeps := by
  refine respells_toIdentity.keeps fun {op r r'} hrun => ?_
  obtain ⟨a, -, hrun⟩ := input_ok hrun
  obtain ⟨out, -, hrun⟩ := Stateful.run_liftM_bind_ok.1 hrun
  replace hrun := Stateful.of_get_bind hrun
  simp only at hrun
  split at hrun
  · obtain ⟨_, r₁, -, hrun⟩ := Stateful.run_bind_ok.1 hrun
    obtain ⟨_, r₂, -, hrun⟩ := Stateful.run_bind_ok.1 hrun
    cases hrun
  · cases hrun
    rfl

/-- A graph whose ops read the operand of an identity for its result, and which then loses the identity. -/
theorem redrafted_bypassed {g g₁ g' : Graph} {out x : TensorId} (h : g.Steady none) (ho : g.op? op.id = some op)
    (hkind : op.kind = .identity) (hout : op.outputs = [out]) (hx : op.inputs.head? = some x) (hkept : out ∉ g.kept)
    (hb : Bypassed g out x g₁) (herase : g₁.eraseOp op.id = .ok (rewire out x op, g')) : Redrafted g g' := by
  have houtmem : out ∈ op.outputs := by simp [hout]
  have hs₁ : g₁.Sound := h.sound.bypassed hb
  have h₁ : g₁.Steady none := h.rewires ho hkind (List.mem_of_head? hx) hout hb
  obtain ⟨hd, hfree⟩ := eraseOp_ok herase
  have hres := Restricts.eraseOp hb.linked herase
  have hsame : ∀ {t}, t ∈ g.kept → (g'.tensor? t).map bare = (g.tensor? t).map bare := by
    intro t hk
    refine (hd.bare_eq fun hmem => hkept ?_).trans (hb.bare_eq t)
    have ht : t = out := by simpa [rewire, hout] using hmem
    exact ht ▸ hk
  have hinfo : g.Typed → g.info? x = g.info? out := by
    intro hg
    obtain ⟨x', out', i, hin, hout', hxi, houti⟩ := hg.inferred.identity ho hkind
    rw [hin, List.head?_cons, Option.some.injEq] at hx
    subst hx
    cases hout.symm.trans hout'
    exact hxi.trans houti.symm
  have hcomputed : ∀ z, g.tensor? out = some z → z.type = .actGrad := by
    intro z hz
    obtain ⟨z', hz', hp⟩ := h.sound.linked.hasTensor_of_output ho houtmem
    cases hz.symm.trans hz'
    exact h.sound.produced hz hp
  refine ⟨⟨h₁.restricts hres (hs₁.dropOp hd fun _ => consumedOutput?_eq_none.1 hfree), by rw [hd.frame, hb.frame],
    fun hk ht => (hasTensor_congr (hsame hk)).trans ht,
    fun hg => ⟨hres.typed (hg.bypassed hb (hinfo hg)), fun hk _ => info?_congr (hsame hk)⟩,
    (KeepsSources.bypassed hb).trans (.dropOp hs₁ hd), fun hg => hres.updating (.dropOp hs₁ hd) ?_⟩,
    fun hg => hres.drafted (hg.bypassed hb)⟩
  exact hg.bypassed h.sound.linked hb ho (by simp [hkind]) houtmem hcomputed

theorem keeps_dropIdentity : dropIdentity.Keeps := by
  refine ⟨fun {op r r'} h ho happ hrun => ?_, fun {op r r'} hrun => ?_⟩
  · have hkind : op.kind = .identity := by simpa [dropIdentity] using happ
    obtain ⟨out, hout⟩ := h.single ho
    obtain ⟨hkept, x, g₁, hx, hb, herase⟩ := dropIdentity_ok h.sound.linked ho hout hrun
    exact redrafted_bypassed h ho hkind hout hx hkept hb herase
  · obtain ⟨a, -, hrun⟩ := input_ok hrun
    obtain ⟨out, -, hrun⟩ := Stateful.run_liftM_bind_ok.1 hrun
    replace hrun := Stateful.of_get_bind hrun
    split at hrun
    · cases hrun
      rfl
    · obtain ⟨_, r₁, -, hrun⟩ := Stateful.run_bind_ok.1 hrun
      obtain ⟨_, r₂, -, hrun⟩ := Stateful.run_bind_ok.1 hrun
      cases hrun

theorem keeps_foldConstants {b : Backend} (hb : b.Lawful) : (foldConstants b).Keeps := by
  refine ⟨fun {op r r'} h ho happ hrun => ?_, fun {op r r'} hrun => ?_⟩
  · obtain ⟨out, hout⟩ := h.single ho
    obtain ⟨values, info, y, removed, g₁, hvalues, hinfo, hkernel, hdetach, hmake⟩ := foldConstants_ok hb hout hrun
    have hd := detachOp_ok hdetach
    cases hd.found.symm.trans ho
    have hconst : ∀ i ∈ op.inputs, ∃ x, r.graph.tensor? i = some x ∧ x.type = .const := by
      intro i hi
      obtain ⟨v, hv⟩ := exists_of_mapM_eq_some hvalues i hi
      obtain ⟨x, hx, htype, -⟩ := constantValue?_eq_some.1 hv
      exact ⟨x, hx, htype⟩
    have hf := h.sound.linked.folded hd hout hmake
    have hsteady := h.folds hf ((h.sound.dropOp hd nofun).makeConst hmake) hconst
    have hop : ∀ {o op'}, r'.graph.op? o = some op' → r.graph.op? o = some op' := fun ho => (hf.op?_eq_some.1 ho).2
    have hsources : KeepsSources r.graph r'.graph := by
      refine (KeepsSources.dropOp h.sound hd).trans (.makeConst hmake fun {x'} hx' => ?_)
      obtain ⟨x, hx, hp⟩ := h.sound.linked.hasTensor_of_output ho (t := out) (by simp [hout])
      rw [hd.tensor?_eq, if_neg (by simp), hx] at hx'
      cases hx'
      exact (h.sound.produced hx hp : x.type = .actGrad)
    exact ⟨⟨hsteady, by rw [hf.frame], fun {t} _ ht => (hf.hasTensor_eq t).trans ht, fun hg =>
      ⟨hg.of_ops hop fun _ _ => hf.info?_eq _, fun _ _ => hf.info?_eq _⟩, hsources, fun hg =>
      hg.of_fewer hsources hop fun _ _ => hf.info?_eq _⟩, fun hg => hg.of_ops fun ho => ⟨_, _, hop ho, rfl, rfl⟩⟩
  · replace hrun := Stateful.of_get_bind hrun
    simp only at hrun
    split at hrun
    · cases hrun
      rfl
    · obtain ⟨_, r₁, -, hrun⟩ := Stateful.run_bind_ok.1 hrun
      obtain ⟨_, r₂, -, hrun⟩ := Stateful.run_bind_ok.1 hrun
      obtain ⟨_, r₃, -, hrun⟩ := Stateful.run_bind_ok.1 hrun
      obtain ⟨_, r₄, -, hrun⟩ := Stateful.run_bind_ok.1 hrun
      cases hrun

end Pattern

/-- All built-in patterns keep what is promised. -/
theorem BuiltIn.keeps {backend : Option Backend} (hb : ∀ b ∈ backend, b.Lawful) {p : BuiltIn} {pattern : Pattern}
    (hp : p.pattern? backend = some pattern) : pattern.Keeps := by
  cases p with
  | foldConstants =>
    obtain ⟨b, hbackend, rfl⟩ := Option.map_eq_some_iff.1 hp
    exact Pattern.keeps_foldConstants (hb b hbackend)
  | inPlace => cases hp
  | dropIdentity => cases hp; exact Pattern.keeps_dropIdentity
  | toIdentity => cases hp; exact Pattern.keeps_toIdentity
  | lowerSubRightGrad => cases hp; exact Pattern.keeps_operandLowering Pattern.respells_lowerSubRightGrad
  | lowerMulGrad => cases hp; exact Pattern.keeps_operandLowering Pattern.respells_lowerMulGrad
  | lowerReciprocalGrad => cases hp; exact Pattern.keeps_lowering Pattern.respells_lowerReciprocalGrad
  | lowerSqrtGrad => cases hp; exact Pattern.keeps_lowering Pattern.respells_lowerSqrtGrad
  | lowerDivLeftGrad => cases hp; exact Pattern.keeps_operandLowering Pattern.respells_lowerDivLeftGrad
  | lowerDivRightGrad => cases hp; exact Pattern.keeps_operandLowering Pattern.respells_lowerDivRightGrad
  | lowerExpGrad => cases hp; exact Pattern.keeps_lowering Pattern.respells_lowerExpGrad

end TensorGraph
